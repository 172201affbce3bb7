import P2pnas.Store.Statements

/-!
# Sessions over the manifest and the shard store

A service call runs statements on the manifest and file operations on the shard store
(`chunkstore.rs`). What the environment makes of each of them is scripted: the next effect
works or fails, and a failed file write may leave a prefix of its bytes behind. An empty
script is a node on which everything works. A transaction that does not commit leaves the
manifest as it found it; the shard store is never rolled back.
-/

namespace P2pnas.Store.Session
open P2pnas.Lib.Frames P2pnas.Lib.Strings P2pnas.Core.Base P2pnas.Store.Manifest

/-- `StoreError` (`error.rs`). -/
inductive StoreError where
  | sqlite
  | io
  | core (e : CoreError)
  | notFound
  | integrity (msg : Text)
  | invalidFragmentId
  deriving DecidableEq, Repr

/-- Raw shards on disk by fragment id. -/
def ChunkStore := Text → Option Bytes

/-- `is_valid_fragment_id` (`chunkstore.rs:19-22`). -/
def isValidFragmentId (frag : Text) : Bool := byteLen frag = 32 && frag.all isHexDigit

def ChunkStore.set (st : ChunkStore) (frag : Text) (content : Option Bytes) : ChunkStore :=
  fun g => if g = frag then content else st g

@[simp] theorem ChunkStore.set_same (st : ChunkStore) (frag : Text) (c : Option Bytes) :
    st.set frag c frag = c := if_pos rfl

theorem ChunkStore.set_other (st : ChunkStore) {frag g : Text} (c : Option Bytes) (h : g ≠ frag) :
    st.set frag c g = st g := if_neg h

/-- What becomes of the next effect. -/
inductive Event where
  | works
  | fails (written : Option ℕ)
  deriving DecidableEq, Repr

structure World where
  db : Db
  store : ChunkStore
  script : List Event

/-- A service call: what it returns and the world it leaves. -/
def Svc (α : Type) := World → Outcome StoreError α × World

instance : Monad Svc where
  pure a := fun w => (.ok a, w)
  bind x f := fun w =>
    match x w with
    | (.ok a, w') => f a w'
    | (.error e, w') => (.error e, w')

/-- Stop with an outcome that was computed without effects. -/
def ofOutcome {α : Type} (o : Outcome StoreError α) : Svc α := fun w => (o, w)

def throwErr {α : Type} (e : StoreError) : Svc α := ofOutcome (fail e)

def orThrow {α : Type} (e : StoreError) (o : Option α) : Svc α := ofOutcome (orFail e o)

/-- One effect under the script; `spoil` is what a failure does to the world. -/
def effect {α : Type} (e : StoreError) (spoil : Option ℕ → World → World) (act : Svc α) : Svc α :=
  fun w =>
    match w.script with
    | [] => act w
    | .works :: rest => act { w with script := rest }
    | .fails k :: rest => (fail e, spoil k { w with script := rest })

/-- A `SELECT`. -/
def query {α : Type} (f : Db → α) : Svc α :=
  effect .sqlite (fun _ w => w) fun w => (.ok (f w.db), w)

/-- A writing statement, refused when it would break a constraint. -/
def stmt (f : Db → Option Db) : Svc Unit :=
  effect .sqlite (fun _ w => w) fun w =>
    match f w.db with
    | some db => (.ok (), { w with db := db })
    | none => (fail .sqlite, w)

/-- `conn.transaction()` … `tx.commit()`: an error, a panic or a failed commit rolls back. -/
def transaction {α : Type} (body : Svc α) : Svc α := fun w =>
  match body w with
  | (.error e, w') => (.error e, { w' with db := w.db })
  | (.ok a, w') =>
    effect .sqlite (fun _ w'' => { w'' with db := w.db }) (fun w'' => (.ok a, w'')) w'

/-! ### The shard store (`chunkstore.rs:45-70`) -/

/-- `ChunkStore::write`: `std::fs::write` truncates, then writes. -/
def storeWrite (frag : Text) (data : Bytes) : Svc Unit :=
  if isValidFragmentId frag then
    effect .io
      (fun k w => match k with
        | none => w
        | some n => { w with store := w.store.set frag (some (data.take n)) })
      fun w => (.ok (), { w with store := w.store.set frag (some data) })
  else throwErr .invalidFragmentId

/-- `ChunkStore::read`. -/
def storeRead (frag : Text) : Svc Bytes :=
  if isValidFragmentId frag then
    effect .io (fun _ w => w) fun w => (orFail .notFound (w.store frag), w)
  else throwErr .invalidFragmentId

/-- `ChunkStore::delete` as its callers use it: a failure is logged and skipped. -/
def storeDelete (frag : Text) : Svc Unit := fun w =>
  if isValidFragmentId frag then
    match w.script with
    | .fails _ :: rest => (.ok (), { w with script := rest })
    | _ => (.ok (), { w with store := w.store.set frag none, script := w.script.tail })
  else (.ok (), w)

/-! ### What a call that returned a value did -/

section
variable {α β : Type} {w w' : World}

theorem bind_apply (x : Svc α) (f : α → Svc β) (w : World) :
    (x >>= f) w = match x w with
      | (.ok a, w') => f a w'
      | (.error e, w') => (.error e, w') := rfl

theorem bind_ok {x : Svc α} {f : α → Svc β} {b : β} (h : (x >>= f) w = (.ok b, w')) :
    ∃ a w₁, x w = (.ok a, w₁) ∧ f a w₁ = (.ok b, w') := by
  rw [bind_apply] at h
  cases hx : x w with
  | mk o w₁ =>
    rw [hx] at h
    cases o with
    | error e => cases h
    | ok a => exact ⟨a, w₁, rfl, h⟩

/-- A sequence ends with the error of its first part, or goes on from its value. -/
theorem bind_cases (x : Svc α) (f : α → Svc β) (w : World) :
    (∃ e w₁, x w = (.error e, w₁) ∧ (x >>= f) w = (.error e, w₁)) ∨
      ∃ a w₁, x w = (.ok a, w₁) ∧ (x >>= f) w = f a w₁ := by
  rw [bind_apply]
  cases hx : x w with
  | mk o w₁ =>
    cases o with
    | error e => exact .inl ⟨e, w₁, rfl, rfl⟩
    | ok a => exact .inr ⟨a, w₁, rfl, rfl⟩

theorem pure_ok {a b : α} (h : (pure a : Svc α) w = (.ok b, w')) : b = a ∧ w' = w := by
  cases h
  exact ⟨rfl, rfl⟩

theorem ofOutcome_ok {o : Outcome StoreError α} {a : α} (h : ofOutcome o w = (.ok a, w')) :
    o = .ok a ∧ w' = w := by
  cases h
  exact ⟨rfl, rfl⟩

theorem orThrow_ok {e : StoreError} {o : Option α} {a : α} (h : orThrow e o w = (.ok a, w')) :
    o = some a ∧ w' = w := by
  obtain ⟨ho, hw⟩ := ofOutcome_ok h
  exact ⟨orFail_eq_ok ho, hw⟩

theorem collect_cons_ok {f : α → Svc β} {a : α} {as : List α} {bs : List β}
    (h : collect f (a :: as) w = (.ok bs, w')) :
    ∃ b w₁ cs, f a w = (.ok b, w₁) ∧ collect f as w₁ = (.ok cs, w') ∧ bs = b :: cs := by
  obtain ⟨b, w₁, hb, h₁⟩ := bind_ok h
  obtain ⟨cs, w₂, hcs, h₂⟩ := bind_ok h₁
  obtain ⟨rfl, rfl⟩ := pure_ok h₂
  exact ⟨b, w₁, cs, hb, hcs, rfl⟩

theorem effect_ok {e : StoreError} {spoil : Option ℕ → World → World} {act : Svc α} {a : α}
    (h : effect e spoil act w = (.ok a, w')) : ∃ s, act { w with script := s } = (.ok a, w') := by
  unfold effect at h
  split at h
  · rename_i hs
    exact ⟨[], by rw [← hs]; exact h⟩
  · rename_i rest hs
    exact ⟨rest, h⟩
  · cases h

theorem query_ok {f : Db → α} {a : α} (h : query f w = (.ok a, w')) :
    a = f w.db ∧ w'.db = w.db ∧ w'.store = w.store := by
  obtain ⟨s, hs⟩ := effect_ok h
  cases hs
  exact ⟨rfl, rfl, rfl⟩

theorem stmt_ok {f : Db → Option Db} (h : stmt f w = (.ok (), w')) :
    f w.db = some w'.db ∧ w'.store = w.store := by
  obtain ⟨s, hs⟩ := effect_ok h
  cases hf : f w.db with
  | none => simp only [hf] at hs; cases hs
  | some db =>
    simp only [hf] at hs
    cases hs
    exact ⟨rfl, rfl⟩

theorem query_error {f : Db → α} {e : Stop StoreError} (h : query f w = (.error e, w')) :
    w'.db = w.db ∧ w'.store = w.store := by
  unfold query effect at h
  split at h
  · cases h
  · cases h
  · cases h
    exact ⟨rfl, rfl⟩

theorem stmt_error {f : Db → Option Db} {e : Stop StoreError} (h : stmt f w = (.error e, w')) :
    w'.db = w.db ∧ w'.store = w.store := by
  have hact : ∀ w₁ : World, (match f w₁.db with
      | some db => ((.ok (), { w₁ with db := db }) : Outcome StoreError Unit × World)
      | none => (fail .sqlite, w₁)) = (.error e, w') → w' = w₁ := by
    intro w₁ h₁
    cases hf : f w₁.db with
    | none => rw [hf] at h₁; cases h₁; rfl
    | some db => rw [hf] at h₁; cases h₁
  unfold stmt effect at h
  split at h
  · rw [hact _ h]
    exact ⟨rfl, rfl⟩
  · rw [hact _ h]
    exact ⟨rfl, rfl⟩
  · cases h
    exact ⟨rfl, rfl⟩

theorem transaction_ok {body : Svc α} {a : α} (h : transaction body w = (.ok a, w')) :
    ∃ w₁, body w = (.ok a, w₁) ∧ w'.db = w₁.db ∧ w'.store = w₁.store := by
  unfold transaction at h
  cases hb : body w with
  | mk o w₁ =>
    rw [hb] at h
    cases o with
    | error e => cases h
    | ok b =>
      obtain ⟨s, hs⟩ := effect_ok h
      cases hs
      exact ⟨w₁, rfl, rfl, rfl⟩

/-- A transaction that returns no value leaves the manifest alone. -/
theorem transaction_error {body : Svc α} {e : Stop StoreError}
    (h : transaction body w = (.error e, w')) : w'.db = w.db := by
  unfold transaction at h
  cases hb : body w with
  | mk o w₁ =>
    rw [hb] at h
    cases o with
    | error e => cases h; rfl
    | ok b =>
      simp only [effect] at h
      split at h
      · cases h
      · cases h
      · cases h; rfl

/-- A transaction and what follows a commit, when that part cannot fail and leaves the manifest
alone. -/
theorem transaction_bind_cases {body : Svc β} {g : β → Svc α}
    (hg : ∀ b w, ∃ a w', g b w = (.ok a, w') ∧ w'.db = w.db) (w : World) :
    (∃ e w', (transaction body >>= g) w = (.error e, w') ∧ w'.db = w.db) ∨
      ∃ b w₁ a w', transaction body w = (.ok b, w₁) ∧ g b w₁ = (.ok a, w') ∧ w'.db = w₁.db ∧
        (transaction body >>= g) w = (.ok a, w') := by
  rcases bind_cases (transaction body) g w with ⟨e, w₁, hx, hb⟩ | ⟨b, w₁, hx, hb⟩
  · exact .inl ⟨e, w₁, hb, transaction_error hx⟩
  · obtain ⟨a, w', hgb, hdb⟩ := hg b w₁
    exact .inr ⟨b, w₁, a, w', hx, hgb, hdb, hb.trans hgb⟩

theorem storeWrite_ok {frag : Text} {data : Bytes} (h : storeWrite frag data w = (.ok (), w')) :
    w'.db = w.db ∧ w'.store = w.store.set frag (some data) := by
  unfold storeWrite at h
  split at h
  · obtain ⟨s, hs⟩ := effect_ok h
    cases hs
    exact ⟨rfl, rfl⟩
  · cases h

theorem storeRead_ok {frag : Text} {data : Bytes} (h : storeRead frag w = (.ok data, w')) :
    w.store frag = some data ∧ w'.db = w.db ∧ w'.store = w.store := by
  unfold storeRead at h
  split at h
  · obtain ⟨s, hs⟩ := effect_ok h
    obtain ⟨ho, hw⟩ := Prod.mk.injEq .. ▸ hs
    subst hw
    exact ⟨orFail_eq_ok ho, rfl, rfl⟩
  · cases h

end

/-! ### Where a panic comes from -/

section
variable {w : World}

theorem bind_panic {α β : Type} {x : Svc α} {f : α → Svc β}
    (h : ((x >>= f) w).1 = .error .panic) :
    (x w).1 = .error .panic ∨ ∃ a w₁, x w = (.ok a, w₁) ∧ (f a w₁).1 = .error .panic := by
  rw [bind_apply] at h
  cases hx : x w with
  | mk o w₁ =>
    rw [hx] at h
    cases o with
    | error e => cases h; exact .inl rfl
    | ok a => exact .inr ⟨a, w₁, rfl, h⟩

theorem effect_calm {α : Type} {e : StoreError} {spoil : Option ℕ → World → World} {act : Svc α}
    (hact : ∀ w, (act w).1 ≠ .error .panic) : (effect e spoil act w).1 ≠ .error .panic := by
  rw [effect]
  split
  · exact hact _
  · exact hact _
  · intro h
    cases h

theorem query_calm {α : Type} (f : Db → α) : (query f w).1 ≠ .error .panic :=
  effect_calm fun _ h => by cases h

theorem stmt_calm (f : Db → Option Db) : (stmt f w).1 ≠ .error .panic := by
  refine effect_calm fun w' h => ?_
  cases hf : f w'.db with
  | none => rw [hf] at h; cases h
  | some db => rw [hf] at h; cases h

theorem transaction_panic {α : Type} {body : Svc α} (h : (transaction body w).1 = .error .panic) :
    (body w).1 = .error .panic := by
  unfold transaction at h
  cases hb : body w with
  | mk o w₁ =>
    rw [hb] at h
    cases o with
    | error e => exact h
    | ok a => exact absurd h (effect_calm fun _ h => by cases h)

/-- A loop of calls panics in one of them. -/
theorem collect_panic {α β : Type} {f : α → Svc β} {as : List α}
    (h : (collect f as w).1 = .error .panic) : ∃ a ∈ as, ∃ w₁, (f a w₁).1 = .error .panic := by
  induction as generalizing w with
  | nil => cases h
  | cons a as ih =>
    rcases bind_panic h with h | ⟨b, w₁, _, h⟩
    · exact ⟨a, List.mem_cons_self .., w, h⟩
    · rcases bind_panic h with h | ⟨bs, w₂, _, h⟩
      · obtain ⟨a', ha', hp⟩ := ih h
        exact ⟨a', List.mem_cons_of_mem _ ha', hp⟩
      · cases h

end

/-! ### What a call leaves alone, however it ends -/

/-- The call moves every world along `R`. -/
def Moves {α : Type} (R : World → World → Prop) (x : Svc α) : Prop := ∀ w, R w (x w).2

/-- A relation between worlds that one can chain and that does not read the script. -/
structure Frame (R : World → World → Prop) : Prop where
  refl : ∀ w s, R w { w with script := s }
  trans : ∀ a b c, R a b → R b c → R a c

section
variable {α β : Type} {R : World → World → Prop} (hR : Frame R)
include hR

theorem Frame.self (w : World) : R w w := hR.refl w w.script

theorem moves_outcome (o : Outcome StoreError α) : Moves R (ofOutcome o) := fun w => hR.self w

theorem moves_pure (a : α) : Moves R (pure a : Svc α) := fun w => hR.self w

theorem moves_bind {x : Svc α} {f : α → Svc β} (hx : Moves R x) (hf : ∀ a, Moves R (f a)) :
    Moves R (x >>= f) := by
  intro w
  rw [bind_apply]
  have h := hx w
  cases hxw : x w with
  | mk o w₁ =>
    rw [hxw] at h
    cases o with
    | error e => exact h
    | ok a => exact hR.trans _ _ _ h (hf a w₁)

/-- A computed outcome moves nothing; what follows knows its value. -/
theorem moves_outcome_bind {o : Outcome StoreError α} {f : α → Svc β}
    (hf : ∀ a, o = .ok a → Moves R (f a)) : Moves R (ofOutcome o >>= f) := by
  intro w
  rw [bind_apply]
  cases o with
  | error e => exact hR.self w
  | ok a => exact hf a rfl w

theorem moves_collect {f : α → Svc β} {as : List α} (hf : ∀ a ∈ as, Moves R (f a)) :
    Moves R (collect f as) := by
  induction as with
  | nil => exact moves_pure hR _
  | cons a as ih =>
    have hrest := ih fun b hb => hf b (List.mem_cons_of_mem _ hb)
    exact moves_bind hR (hf a (List.mem_cons_self ..)) fun b =>
      moves_bind hR hrest fun bs => moves_pure hR _

theorem moves_effect {e : StoreError} {spoil : Option ℕ → World → World} {act : Svc α}
    (hs : ∀ k w, R w (spoil k w)) (ha : Moves R act) : Moves R (effect e spoil act) := by
  intro w
  unfold effect
  split
  · exact ha w
  · exact hR.trans _ _ _ (hR.refl w _) (ha _)
  · exact hR.trans _ _ _ (hR.refl w _) (hs _ _)

theorem moves_query (f : Db → α) : Moves R (query f) :=
  moves_effect hR (fun _ w => hR.self w) fun w => hR.self w

theorem moves_stmt {f : Db → Option Db}
    (hf : ∀ w db, f w.db = some db → R w { w with db := db }) : Moves R (stmt f) := by
  apply moves_effect hR (fun _ w => hR.self w)
  intro w
  cases h : f w.db with
  | none => simp only [h]; exact hR.self w
  | some db => simp only [h]; exact hf w db h

/-- `hback`: rolling the manifest back stays within `R`. -/
theorem moves_transaction {body : Svc α} (hback : ∀ w w', R w w' → R w { w' with db := w.db })
    (h : Moves R body) : Moves R (transaction body) := by
  intro w
  have hb := h w
  unfold transaction
  cases hbw : body w with
  | mk o w₁ =>
    rw [hbw] at hb
    cases o with
    | error e => exact hback _ _ hb
    | ok a =>
      simp only [effect]
      split
      · exact hb
      · exact hR.trans _ _ _ hb (hR.refl _ _)
      · rename_i rest _
        exact hback _ _ (hR.trans _ _ _ hb (hR.refl w₁ rest))

theorem moves_storeRead (frag : Text) : Moves R (storeRead frag) := by
  unfold storeRead
  split
  · exact moves_effect hR (fun _ w => hR.self w) fun w => hR.self w
  · exact moves_outcome hR _

theorem moves_storeWrite {frag : Text} {data : Bytes}
    (hw : ∀ w b, R w { w with store := w.store.set frag (some b) }) :
    Moves R (storeWrite frag data) := by
  unfold storeWrite
  split
  · apply moves_effect hR
    · intro k w
      cases k with
      | none => exact hR.self w
      | some n => exact hw w _
    · intro w
      exact hw w _
  · exact moves_outcome hR _

end

end P2pnas.Store.Session
