import P2pnas.Lib.Codecs
import P2pnas.Node.Wire

/-!
# Messages as bytes on a connection (`protocol.rs:316-335`, `server.rs:134-227`)

`write_message` puts the `bincode` form of a message behind its length, `read_message` takes it off
the stream again, and the listener reads and answers one message after the other until a read fails
or takes longer than `READ_TIMEOUT`, or an answer cannot be written. Whole frames are what the
listener, the relay and the client exchange; here they are the bytes in between, each at the time the
network brings it. The encoding itself is a library's: a result says what it takes of it.
-/

namespace P2pnas.Node.MessageStream
open P2pnas.Lib.Frames P2pnas.Lib.Strings P2pnas.Lib.Codecs P2pnas.Node.Wire

/-- `bincode::serialize` and `bincode::deserialize`. -/
structure Bincode where
  serialize : P2pMessage → Option Bytes
  deserialize : Bytes → Option P2pMessage

/-- What was serialized is read back. -/
def Bincode.Inverts (B : Bincode) : Prop := ∀ m b, B.serialize m = some b → B.deserialize b = some m

/-- A message takes the length its frame is measured by. -/
def Bincode.Sized (B : Bincode) : Prop := ∀ m b, B.serialize m = some b → b.length = m.frameLen

/-! ### The bytes of a connection -/

/-- `READ_TIMEOUT` in milliseconds. -/
def READ_TIMEOUT : ℕ := 30000

/-- What comes in on a connection: every byte with its time. -/
abbrev Incoming := List (ℕ × UInt8)

def bytesOf (inc : Incoming) : Bytes := inc.map Prod.snd

/-- How many bytes are there by the time. -/
def there (time : ℕ) (inc : Incoming) : ℕ := (inc.takeWhile fun x => x.1 ≤ time).length

/-- `read_exact`; `none` when the bytes are not there in time. -/
def readExact (deadline n : ℕ) (inc : Incoming) : Option (Bytes × Incoming) :=
  if n ≤ there deadline inc then some ((bytesOf inc).take n, inc.drop n) else none

inductive ReadStop where
  | missing
  | tooLarge (text : Text)
  | undecodable
  deriving DecidableEq, Repr

section
variable (B : Bincode)

/-- `read_message`. -/
def readMessage (deadline : ℕ) (inc : Incoming) : Except ReadStop (P2pMessage × Incoming) :=
  match readExact deadline 4 inc with
  | none => .error .missing
  | some (word, inc') =>
    if MAX_MESSAGE_BYTES < leVal word then
      .error (.tooLarge s!"p2p frame too large: {leVal word} bytes (max {MAX_MESSAGE_BYTES})".toList)
    else
      match readExact deadline (leVal word) inc' with
      | none => .error .missing
      | some (buf, inc'') =>
        match B.deserialize buf with
        | some m => .ok (m, inc'')
        | none => .error .undecodable

/-- A payload behind its length, which is cut to a `u32`. -/
def framed (data : Bytes) : Bytes := leBytes 4 data.length ++ data

/-- What `write_message` puts on the connection. -/
def writeMessage (m : P2pMessage) : Option Bytes := (B.serialize m).map framed

end

/-- How a connection ends. -/
inductive ConnEnd where
  | closed
  | timedOut
  | failed (e : ReadStop)
  | writeFailed
  deriving DecidableEq, Repr

/-- The other end is seen to have closed: it did so in time, and all it sent before is there. -/
def seesClose (deadline : ℕ) (closed : Option ℕ) (inc : Incoming) : Bool :=
  match closed with
  | some t => t ≤ deadline && there deadline inc = (bytesOf inc).length
  | none => false

/-! #### What is read -/

theorem bytesOf_drop (n : ℕ) (inc : Incoming) : bytesOf (inc.drop n) = (bytesOf inc).drop n :=
  List.map_drop

theorem there_drop (time n : ℕ) (inc : Incoming) (h : n ≤ there time inc) :
    there time (inc.drop n) = there time inc - n := by
  induction inc generalizing n with
  | nil =>
    rw [List.drop_nil]
    exact (Nat.sub_eq_zero_of_le (Nat.zero_le _)).symm
  | cons x inc ih =>
    cases n with
    | zero => rfl
    | succ n =>
      unfold there at h ⊢
      by_cases hx : x.1 ≤ time
      · rw [List.takeWhile_cons_of_pos (by simpa using hx), List.length_cons] at h ⊢
        rw [List.drop_succ_cons]
        have hrest := ih n (Nat.le_of_succ_le_succ h)
        unfold there at hrest
        omega
      · rw [List.takeWhile_cons_of_neg (by simpa using hx)] at h
        cases h

/-- The bytes that were asked for come first. -/
theorem readExact_front {deadline : ℕ} {inc : Incoming} {b tail : Bytes}
    (h : bytesOf inc = b ++ tail) (hthere : b.length ≤ there deadline inc) :
    readExact deadline b.length inc = some (b, inc.drop b.length) := by
  rw [readExact, if_pos hthere, h, List.take_left]

section
variable (B : Bincode) (clock : ℕ → ℕ) (answered : ℕ → Bool) (closed : Option ℕ)

end

section
variable {B : Bincode} {clock : ℕ → ℕ} {answered : ℕ → Bool} {closed : Option ℕ} {i : ℕ} {inc : Incoming}

/-- A frame that is there is read, cap included. -/
theorem readMessage_framed {deadline : ℕ} {data tail : Bytes} (hlen : data.length < 2 ^ 32)
    (h : bytesOf inc = framed data ++ tail) (hthere : (framed data).length ≤ there deadline inc) :
    readMessage B deadline inc =
      if MAX_MESSAGE_BYTES < data.length then
        .error (.tooLarge s!"p2p frame too large: {data.length} bytes (max {MAX_MESSAGE_BYTES})".toList)
      else match B.deserialize data with
        | some m => .ok (m, inc.drop (framed data).length)
        | none => .error .undecodable := by
  have hframe : (framed data).length = 4 + data.length := by
    rw [framed, List.length_append, leBytes_length]
  rw [framed, List.append_assoc] at h
  have hword : readExact deadline (leBytes 4 data.length).length inc = some (leBytes 4 data.length, _) :=
    readExact_front h (by rw [leBytes_length]; omega)
  rw [leBytes_length] at hword
  have hval : leVal (leBytes 4 data.length) = data.length := leVal_leBytes hlen
  have hrest : bytesOf (inc.drop 4) = data ++ tail := by
    rw [bytesOf_drop, h, List.drop_left' (leBytes_length 4 data.length)]
  have hleft : there deadline (inc.drop 4) = there deadline inc - 4 := there_drop _ _ _ (by omega)
  have hbuf : readExact deadline data.length (inc.drop 4) = some (data, _) :=
    readExact_front hrest (by omega)
  rw [readMessage, hword]
  dsimp only
  rw [hval, hbuf, hframe, List.drop_drop]

/-- The bytes of a frame are read as the frame of the message exchange. -/
theorem readMessage_readFrame (hinv : B.Inverts) (hsize : B.Sized) {deadline : ℕ} {m : P2pMessage} {data tail : Bytes}
    (hser : B.serialize m = some data) (hlen : m.frameLen < 2 ^ 32)
    (h : bytesOf inc = framed data ++ tail) (hthere : (framed data).length ≤ there deadline inc) :
    match readFrame m with
    | .ok m' => readMessage B deadline inc = .ok (m', inc.drop (framed data).length)
    | .error e => readMessage B deadline inc = .error (.tooLarge e.text) := by
  have hsame := hsize m data hser
  have hread := readMessage_framed (B := B) (hsame ▸ hlen) h hthere
  rw [hsame, hinv m data hser] at hread
  unfold readFrame
  by_cases hbig : MAX_MESSAGE_BYTES < m.frameLen
  · rw [if_pos hbig] at hread ⊢
    exact hread
  · rw [if_neg hbig] at hread ⊢
    exact hread

/-- The frames of messages. -/
def framesOf (B : Bincode) (ms : List P2pMessage) : Bytes := ms.flatMap fun m => (writeMessage B m).getD []

theorem framesOf_cons {m : P2pMessage} {data : Bytes} (h : B.serialize m = some data) (ms : List P2pMessage) :
    framesOf B (m :: ms) = framed data ++ framesOf B ms := by
  rw [framesOf, List.flatMap_cons, writeMessage, h]
  rfl

/-- Why a connection ended after the messages `whole` of `ms`, with what was left of its stream. -/
def EndsFor (B : Bincode) (clock : ℕ → ℕ) (answered : ℕ → Bool) (i : ℕ) (inc : Incoming)
    (whole rest : List P2pMessage) : ConnEnd → Prop
  -- what arrived of the next message is a part of it
  | .closed => ∀ m, rest.head? = some m →
      (bytesOf inc).length < (framesOf B whole).length + ((writeMessage B m).getD []).length
  -- the next message was not all there when the time of its read was up
  | .timedOut => ∀ m, rest.head? = some m →
      there (clock (i + whole.length) + READ_TIMEOUT) (inc.drop (framesOf B whole).length) <
        ((writeMessage B m).getD []).length
  | .writeFailed => ∃ n, whole.length = n + 1 ∧ answered (i + n) = false
  | .failed _ => False

/-- A read that finds only a part of the next frame ends the connection. -/
theorem EndsFor.part {m : P2pMessage} {ms : List P2pMessage}
    (h : there (clock i + READ_TIMEOUT) inc < ((writeMessage B m).getD []).length) :
    EndsFor B clock answered i inc [] (m :: ms)
      (if seesClose (clock i + READ_TIMEOUT) closed inc then .closed else .timedOut) := by
  split
  · next hclose =>
    rintro m' ⟨⟩
    unfold seesClose at hclose
    split at hclose
    · rw [Bool.and_eq_true, decide_eq_true_eq, decide_eq_true_eq] at hclose
      rw [← hclose.2]
      exact lt_of_lt_of_le h (Nat.le_add_left _ _)
    · cases hclose
  · rintro m' ⟨⟩
    exact h

/-- With one more message received before, a connection ends for the same reason. -/
theorem EndsFor.cons {m : P2pMessage} {data tail : Bytes} {whole rest : List P2pMessage} {e : ConnEnd}
    (hser : B.serialize m = some data) (hsplit : bytesOf inc = framed data ++ tail)
    (h : EndsFor B clock answered (i + 1) (inc.drop (framed data).length) whole rest e) :
    EndsFor B clock answered i inc (m :: whole) rest e := by
  have hframes := framesOf_cons hser whole
  cases e with
  | closed =>
    intro m' hm'
    have hlt := h m' hm'
    rw [bytesOf_drop, hsplit, List.drop_left] at hlt
    rw [hsplit, hframes, List.length_append, List.length_append]
    omega
  | timedOut =>
    intro m' hm'
    have hlt := h m' hm'
    rw [hframes, List.length_append, ← List.drop_drop, List.length_cons]
    have hnum : i + (whole.length + 1) = i + 1 + whole.length := by omega
    rw [hnum]
    exact hlt
  | writeFailed =>
    obtain ⟨n, hn, hno⟩ := h
    refine ⟨n + 1, by rw [List.length_cons, hn], ?_⟩
    have hnum : i + (n + 1) = i + 1 + n := by omega
    rw [hnum]
    exact hno
  | failed e => exact h

/-- All that comes is there in time for every read, also the end. -/
def InTime (clock : ℕ → ℕ) (closed : Option ℕ) (inc : Incoming) : Prop :=
  ∃ t, closed = some t ∧ ∀ i, t ≤ clock i + READ_TIMEOUT ∧
    there (clock i + READ_TIMEOUT) inc = (bytesOf inc).length

theorem InTime.drop (h : InTime clock closed inc) {n : ℕ} (hn : n ≤ (bytesOf inc).length) :
    InTime clock closed (inc.drop n) := by
  obtain ⟨t, ht, hall⟩ := h
  refine ⟨t, ht, fun i => ⟨(hall i).1, ?_⟩⟩
  rw [there_drop _ _ _ (by rw [(hall i).2]; exact hn), (hall i).2, bytesOf_drop, List.length_drop]

end

section
variable {B : Bincode} {clock : ℕ → ℕ} {answered : ℕ → Bool} {closed : Option ℕ} {i : ℕ} {inc : Incoming}

end

def u16 : Codec UInt16 :=
  (word 2).refine (fun n => some (UInt16.ofNat n)) (fun u => some u.toNat)
    (by
      intro n u hn h
      have hlt : n < 2 ^ 16 := word_fits.mp hn
      cases h
      rw [UInt16.toNat_ofNat', Nat.mod_eq_of_lt hlt])
    (by
      intro u n h
      cases h
      rw [UInt16.ofNat_toNat])

/-- An `i32` in two's complement. -/
def i32 : Codec ℤ :=
  (word 4).refine (fun n => some (if n < 2 ^ 31 then n else n - 2 ^ 32))
    (fun z => if -2 ^ 31 ≤ z ∧ z < 2 ^ 31 then some (z % 2 ^ 32).toNat else none)
    (by
      intro n z hn h
      have hlt : n < 2 ^ 32 := word_fits.mp hn
      obtain rfl := Option.some.inj h
      split
      · rw [if_pos (by omega)]
        congr 1
        omega
      · rw [if_pos (by omega)]
        congr 1
        omega)
    (by
      intro z n h
      split at h
      · obtain rfl := Option.some.inj h
        congr 1
        split <;> omega
      · cases h)

def boolean : Codec Bool :=
  (word 1).refine (fun n => if n = 0 then some false else if n = 1 then some true else none)
    (fun b => some (if b then 1 else 0))
    (by
      intro n b _ h
      split at h
      · next hn =>
        cases h
        rw [hn]
        rfl
      · split at h
        · next hn =>
          cases h
          rw [hn]
          rfl
        · cases h)
    (by
      intro b n h
      cases h
      cases b <;> rfl)

/-- One form of a type that has several. -/
def variant {α β : Type} (c : Codec α) (make : α → β) (fields : β → Option α)
    (h : ∀ a b, fields b = some a ↔ make a = b) : Codec β :=
  c.refine (fun a => some (make a)) fields (fun a b _ hb => (h a b).mpr (Option.some.inj hb))
    fun b a hb => congrArg some ((h a b).mp hb)

theorem variant_fits {α β : Type} {c : Codec α} {make : α → β} {fields : β → Option α}
    {h : ∀ a b, fields b = some a ↔ make a = b} {b : β} (hb : (variant c make fields h).Fits b) :
    ∃ a, make a = b ∧ c.Fits a := by
  obtain ⟨a, hfields, hfits⟩ := hb
  exact ⟨a, (h a b).mp hfields, hfits⟩

def optional {α : Type} (c : Codec α) : Codec (Option α) :=
  tagged 1
    [variant Codec.unit (fun _ => none) (fun | none => some () | some _ => none) (by
        intro _ o
        cases o <;> simp),
      variant c some id (fun _ _ => eq_comm)]
    (fun o => if o.isSome then 1 else 0) (by
      intro n c o hn ho
      rcases n with _ | _ | n
      · cases hn
        obtain ⟨_, rfl, -⟩ := variant_fits ho
        rfl
      · cases hn
        obtain ⟨_, rfl, -⟩ := variant_fits ho
        rfl
      · cases hn)

/-- `String` and `Vec<u8>` behind a `u64`. -/
def string : Codec Text := text 8
def vec : Codec Bytes := bytes 8

/-! #### The messages -/

/-- The variants in the order of the source (`protocol.rs:32-113`), each with its fields in order. -/
def variants : List (Codec P2pMessage) := [
  variant (string.pair u16) (fun x => .ping x.1 x.2) (fun | .ping p n => some (p, n) | _ => none)
    (fun x m => ⟨fun h => by cases m <;> cases h; rfl, fun h => by cases h; rfl⟩),
  variant (string.pair (u16.pair (optional string))) (fun x => .pong x.1 x.2.1 x.2.2)
    (fun | .pong p n o => some (p, n, o) | _ => none)
    (fun x m => ⟨fun h => by cases m <;> cases h; rfl, fun h => by cases h; rfl⟩),
  variant (string.pair (string.pair (i32.pair vec))) (fun x => .storeShard x.1 x.2.1 x.2.2.1 x.2.2.2)
    (fun | .storeShard f o i d => some (f, o, i, d) | _ => none)
    (fun x m => ⟨fun h => by cases m <;> cases h; rfl, fun h => by cases h; rfl⟩),
  variant string .ack (fun | .ack f => some f | _ => none)
    (fun x m => ⟨fun h => by cases m <;> cases h; rfl, fun h => by cases h; rfl⟩),
  variant string .getShard (fun | .getShard f => some f | _ => none)
    (fun x m => ⟨fun h => by cases m <;> cases h; rfl, fun h => by cases h; rfl⟩),
  variant (string.pair vec) (fun x => .shardData x.1 x.2) (fun | .shardData f d => some (f, d) | _ => none)
    (fun x m => ⟨fun h => by cases m <;> cases h; rfl, fun h => by cases h; rfl⟩),
  variant string .shardNotFound (fun | .shardNotFound f => some f | _ => none)
    (fun x m => ⟨fun h => by cases m <;> cases h; rfl, fun h => by cases h; rfl⟩),
  variant string .hasShard (fun | .hasShard f => some f | _ => none)
    (fun x m => ⟨fun h => by cases m <;> cases h; rfl, fun h => by cases h; rfl⟩),
  variant (string.pair boolean) (fun x => .hasShardResult x.1 x.2)
    (fun | .hasShardResult f b => some (f, b) | _ => none)
    (fun x m => ⟨fun h => by cases m <;> cases h; rfl, fun h => by cases h; rfl⟩),
  variant string .auditShard (fun | .auditShard f => some f | _ => none)
    (fun x m => ⟨fun h => by cases m <;> cases h; rfl, fun h => by cases h; rfl⟩),
  variant (string.pair string) (fun x => .auditResult x.1 x.2) (fun | .auditResult f h => some (f, h) | _ => none)
    (fun x m => ⟨fun h => by cases m <;> cases h; rfl, fun h => by cases h; rfl⟩),
  variant (string.pair string) (fun x => .deleteShard x.1 x.2) (fun | .deleteShard f o => some (f, o) | _ => none)
    (fun x m => ⟨fun h => by cases m <;> cases h; rfl, fun h => by cases h; rfl⟩),
  variant string .error (fun | .error t => some t | _ => none)
    (fun x m => ⟨fun h => by cases m <;> cases h; rfl, fun h => by cases h; rfl⟩),
  variant (string.pair (u16.pair vec)) (fun x => .authPing x.1 x.2.1 x.2.2)
    (fun | .authPing p n c => some (p, n, c) | _ => none)
    (fun x m => ⟨fun h => by cases m <;> cases h; rfl, fun h => by cases h; rfl⟩),
  variant (string.pair (u16.pair ((optional string).pair (string.pair (string.pair vec)))))
    (fun x => .authPong x.1 x.2.1 x.2.2.1 x.2.2.2.1 x.2.2.2.2.1 x.2.2.2.2.2)
    (fun | .authPong p n o k s c => some (p, n, o, k, s, c) | _ => none)
    (fun x m => ⟨fun h => by cases m <;> cases h; rfl, fun h => by cases h; rfl⟩),
  variant (string.pair (string.pair string)) (fun x => .authProof x.1 x.2.1 x.2.2)
    (fun | .authProof p k s => some (p, k, s) | _ => none)
    (fun x m => ⟨fun h => by cases m <;> cases h; rfl, fun h => by cases h; rfl⟩),
  variant string .authOk (fun | .authOk p => some p | _ => none)
    (fun x m => ⟨fun h => by cases m <;> cases h; rfl, fun h => by cases h; rfl⟩)]

/-- The position of the variant. -/
def tag : P2pMessage → ℕ
  | .ping .. => 0
  | .pong .. => 1
  | .storeShard .. => 2
  | .ack .. => 3
  | .getShard .. => 4
  | .shardData .. => 5
  | .shardNotFound .. => 6
  | .hasShard .. => 7
  | .hasShardResult .. => 8
  | .auditShard .. => 9
  | .auditResult .. => 10
  | .deleteShard .. => 11
  | .error .. => 12
  | .authPing .. => 13
  | .authPong .. => 14
  | .authProof .. => 15
  | .authOk .. => 16

theorem tag_eq (n : ℕ) (c : Codec P2pMessage) (m : P2pMessage) (hn : variants[n]? = some c) (hm : c.Fits m) :
    tag m = n := by
  rcases n with _ | _ | _ | _ | _ | _ | _ | _ | _ | _ | _ | _ | _ | _ | _ | _ | _ | n
  case succ.succ.succ.succ.succ.succ.succ.succ.succ.succ.succ.succ.succ.succ.succ.succ.succ => cases hn
  all_goals
    cases hn
    obtain ⟨_, rfl, -⟩ := variant_fits hm
    rfl

def message : Codec P2pMessage := tagged 4 variants tag tag_eq

/-! #### What fits and how long it gets -/

theorem string_spends (t : Text) (h : byteLen t < 256 ^ 8) : string.Spends t (textLen t) := text_spends h

theorem vec_spends (b : Bytes) (h : b.length < 256 ^ 8) : vec.Spends b (8 + b.length) := bytes_spends h

theorem u16_spends (u : UInt16) : u16.Spends u 2 := refine_spends rfl (word_spends u.toNat_lt)

theorem boolean_spends (b : Bool) : boolean.Spends b 1 := by
  refine refine_spends rfl (word_spends ?_)
  cases b <;> decide

theorem i32_spends {z : ℤ} (h : -2 ^ 31 ≤ z ∧ z < 2 ^ 31) : i32.Spends z 4 := by
  refine refine_spends (if_pos h) (word_spends ?_)
  omega

theorem optional_spends (o : Option Text) (h : optionLen o < 256 ^ 8) : (optional string).Spends o (optionLen o) := by
  cases o with
  | none => exact tagged_spends rfl (by simp) (refine_spends rfl ⟨trivial, rfl⟩)
  | some t =>
    simp only [optionLen, textLen, Option.map_some, Option.getD_some] at h
    exact tagged_spends rfl (by simp) (refine_spends rfl (string_spends t (by omega)))

/-- The index of a shard is an `i32`. -/
def indexFits : P2pMessage → Bool
  | .storeShard _ _ i _ => -2 ^ 31 ≤ i && i < 2 ^ 31
  | _ => true

theorem message_spends_of {m : P2pMessage} {c : Codec P2pMessage} {n : ℕ} (hc : variants[tag m]? = some c)
    (hm : c.Spends m n) : message.Spends m (4 + n) := by
  refine tagged_spends hc ?_ hm
  cases m <;> simp [tag]

/-- Every field of a message has room, and the message takes the length its frame is measured by. -/
theorem message_spends (m : P2pMessage) (hlen : m.frameLen < 256 ^ 8) (hidx : indexFits m = true) :
    message.Spends m m.frameLen := by
  cases m with
  | ping p n =>
    simp only [P2pMessage.frameLen, textLen] at hlen
    refine .of_eq (message_spends_of rfl (refine_spends rfl ((string_spends p (by omega)).pair
      (u16_spends n)))) ?_
    simp only [P2pMessage.frameLen, textLen]
    omega
  | pong p n o =>
    simp only [P2pMessage.frameLen, textLen] at hlen
    refine .of_eq (message_spends_of rfl (refine_spends rfl ((string_spends p (by omega)).pair ((u16_spends n).pair
      (optional_spends o (by omega)))))) ?_
    simp only [P2pMessage.frameLen, textLen]
    omega
  | storeShard f w i d =>
    simp only [P2pMessage.frameLen, textLen] at hlen
    rw [indexFits, Bool.and_eq_true, decide_eq_true_eq, decide_eq_true_eq] at hidx
    refine .of_eq (message_spends_of rfl (refine_spends rfl ((string_spends f (by omega)).pair
      ((string_spends w (by omega)).pair ((i32_spends hidx).pair (vec_spends d (by omega))))))) ?_
    simp only [P2pMessage.frameLen, textLen]
    omega
  | shardData f d =>
    simp only [P2pMessage.frameLen, textLen] at hlen
    refine .of_eq (message_spends_of rfl (refine_spends rfl ((string_spends f (by omega)).pair
      (vec_spends d (by omega))))) ?_
    simp only [P2pMessage.frameLen, textLen]
    omega
  | hasShardResult f b =>
    simp only [P2pMessage.frameLen, textLen] at hlen
    refine .of_eq (message_spends_of rfl (refine_spends rfl ((string_spends f (by omega)).pair
      (boolean_spends b)))) ?_
    simp only [P2pMessage.frameLen, textLen]
    omega
  | auditResult f k =>
    simp only [P2pMessage.frameLen, textLen] at hlen
    refine .of_eq (message_spends_of rfl (refine_spends rfl ((string_spends f (by omega)).pair
      (string_spends k (by omega))))) ?_
    simp only [P2pMessage.frameLen, textLen]
    omega
  | deleteShard f w =>
    simp only [P2pMessage.frameLen, textLen] at hlen
    refine .of_eq (message_spends_of rfl (refine_spends rfl ((string_spends f (by omega)).pair
      (string_spends w (by omega))))) ?_
    simp only [P2pMessage.frameLen, textLen]
    omega
  | authPing p n c =>
    simp only [P2pMessage.frameLen, textLen] at hlen
    refine .of_eq (message_spends_of rfl (refine_spends rfl ((string_spends p (by omega)).pair ((u16_spends n).pair
      (vec_spends c (by omega)))))) ?_
    simp only [P2pMessage.frameLen, textLen]
    omega
  | authPong p n o k g c =>
    simp only [P2pMessage.frameLen, textLen] at hlen
    refine .of_eq (message_spends_of rfl (refine_spends rfl ((string_spends p (by omega)).pair ((u16_spends n).pair
      ((optional_spends o (by omega)).pair ((string_spends k (by omega)).pair
      ((string_spends g (by omega)).pair (vec_spends c (by omega))))))))) ?_
    simp only [P2pMessage.frameLen, textLen]
    omega
  | authProof p k g =>
    simp only [P2pMessage.frameLen, textLen] at hlen
    refine .of_eq (message_spends_of rfl (refine_spends rfl ((string_spends p (by omega)).pair
      ((string_spends k (by omega)).pair (string_spends g (by omega)))))) ?_
    simp only [P2pMessage.frameLen, textLen]
    omega
  | ack f | getShard f | shardNotFound f | hasShard f | auditShard f | error f | authOk f =>
    simp only [P2pMessage.frameLen, textLen] at hlen
    exact message_spends_of rfl (refine_spends rfl (string_spends f (by omega)))

def layout : Bincode where
  serialize m := if m.frameLen < 256 ^ 8 ∧ indexFits m = true then some (message.write m) else none
  deserialize bs := (message.read bs).map (·.1)

theorem layout_some {m : P2pMessage} {b : Bytes} (h : layout.serialize m = some b) :
    b = message.write m ∧ message.Spends m m.frameLen := by
  unfold layout at h
  dsimp only at h
  split at h
  · next hfits =>
    cases h
    exact ⟨rfl, message_spends m hfits.1 hfits.2⟩
  · cases h

theorem layout_inverts : layout.Inverts := by
  intro m b h
  obtain ⟨rfl, hfits, -⟩ := layout_some h
  have hread := message.read_write m [] hfits
  rw [List.append_nil] at hread
  change (message.read (message.write m)).map (·.1) = some m
  rw [hread]
  rfl

theorem layout_sized : layout.Sized := by
  intro m b h
  obtain ⟨rfl, -, hlen⟩ := layout_some h
  exact hlen

/-- What the layout sends is read back as the frame that was written. -/
theorem readMessage_layout {deadline : ℕ} {m : P2pMessage} {data tail : Bytes} {inc : Incoming}
    (hser : layout.serialize m = some data) (hlen : m.frameLen < 2 ^ 32)
    (h : bytesOf inc = framed data ++ tail) (hthere : (framed data).length ≤ there deadline inc) :
    match readFrame m with
    | .ok m' => readMessage layout deadline inc = .ok (m', inc.drop (framed data).length)
    | .error e => readMessage layout deadline inc = .error (.tooLarge e.text) :=
  readMessage_readFrame layout_inverts layout_sized hser hlen h hthere

end P2pnas.Node.MessageStream
