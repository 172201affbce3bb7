import P2pnas.Lib.Runs
import P2pnas.Node.Peers

/-!
# Key pinning (`discovery/mod.rs:76-159`, `admin.rs:264-366`)

`upsert_peer_guarded` and `add_peer` each read the pinned key of a peer and then write its row
in one transaction. The transactions interleave statement by statement: PostgreSQL and MySQL
lock the row that was read, SQLite refuses the write of a transaction whose read is stale.
What a transaction wrote is in the table once it committed.
-/

namespace P2pnas.Node.Pinning
open P2pnas.Lib.Frames P2pnas.Lib.Strings P2pnas.Lib.Tables P2pnas.Lib.Runs
open P2pnas.Store.Manifest P2pnas.Node.Peers

/-- The columns of `p2pnas.peers` with the ones the handshakes fill in. -/
structure Peer extends PeerRow where
  thresholdDays : ℤ
  publicKey : Option Text
  verifiedAt : Option Time
  lastSeen : Option Time
  deriving DecidableEq, Repr

def Peer.id (r : Peer) : Text := r.peerId

/-- `p2pnas.peers`: the peer id is the primary key. -/
structure Table where
  rows : List Peer
  unique : (rows.map Peer.id).Nodup

def Table.find (t : Table) (id : Text) : Option Peer := lookup Peer.id id t.rows

/-- `SELECT public_key FROM peers WHERE peer_id = id`. -/
def Table.pinned (t : Table) (id : Text) : Option (Option Text) := (t.find id).map Peer.publicKey

/-- `INSERT`: nothing where the key is taken. -/
def Table.insert (t : Table) (r : Peer) : Table :=
  if h : r.id ∈ t.rows.map Peer.id then t
  else { rows := t.rows ++ [r], unique := nodup_concat t.unique h }

/-! ### The two writers -/

inductive PeerError where
  | badRequest (message : Text)
  | database
  deriving DecidableEq, Repr

/-- The body of `POST /peers`. -/
structure AddPeer where
  addr : Text
  peerId : Option Text
  thresholdDays : Option ℤ
  deriving DecidableEq, Repr

/-- What `handshake_verified` returns: no key from a peer that answered the legacy `Ping`. -/
structure VerifiedPeer where
  peerId : Text
  publicKey : Option Text
  deriving DecidableEq, Repr

/-- The values bound in a guarded write. -/
inductive Op where
  | upsertPeerGuarded (peerId addr : Text) (zone publicKey : Option Text)
  | addPeer (peerId addr status : Text) (generosity : Option ℤ) (publicKey : Option Text)
  deriving DecidableEq, Repr

def Op.peerId : Op → Text
  | .upsertPeerGuarded peerId .. => peerId
  | .addPeer peerId .. => peerId

def Op.addr : Op → Text
  | .upsertPeerGuarded _ addr .. => addr
  | .addPeer _ addr .. => addr

/-- The key the handshake proved. -/
def Op.publicKey : Op → Option Text
  | .upsertPeerGuarded _ _ _ publicKey => publicKey
  | .addPeer _ _ _ _ publicKey => publicKey

def ACTIVE : Text := "active".toList

/-- The order key of the default score 100.0. -/
def RELIABILITY_DEFAULT : ℤ := 0x4059000000000000

def THRESHOLD_DAYS_DEFAULT : ℤ := 7

/-- The row a first contact inserts; the columns not named take their defaults. -/
def Op.inserted (now : Time) : Op → Peer
  | .upsertPeerGuarded peerId addr zone publicKey =>
    { peerId, addr, status := ACTIVE, country := none, zone, reliability := RELIABILITY_DEFAULT,
      thresholdDays := THRESHOLD_DAYS_DEFAULT, publicKey, verifiedAt := publicKey.map fun _ => now,
      lastSeen := some now }
  | .addPeer peerId addr status generosity publicKey =>
    { peerId, addr, status, country := none, zone := none, reliability := RELIABILITY_DEFAULT,
      thresholdDays := generosity.getD 7, publicKey, verifiedAt := publicKey.map fun _ => now,
      lastSeen := some now }

/-- The `SET` list of the update. -/
def Op.updated (now : Time) (r : Peer) : Op → Peer
  | .upsertPeerGuarded _ addr zone publicKey =>
    { r with
      addr
      lastSeen := some now
      zone := r.zone.or zone
      publicKey := r.publicKey.or publicKey
      verifiedAt := if publicKey.isNone then r.verifiedAt else some now }
  | .addPeer _ addr _ generosity publicKey =>
    { r with
      addr
      lastSeen := some now
      thresholdDays := generosity.getD r.thresholdDays
      publicKey := r.publicKey.or publicKey
      verifiedAt := if publicKey.isNone then r.verifiedAt else some now }

/-- `pinned.is_none() || pinned.as_deref() == public_key`. -/
def allowed (pinned publicKey : Option Text) : Bool := pinned.isNone || pinned = publicKey

/-- The part of `add_peer` before its transaction; `handshake`: the answer of the address. -/
def addPeer (body : AddPeer) (handshake : Except Text VerifiedPeer) : Except PeerError Op :=
  let addr := trim body.addr
  if addr = [] then .error (.badRequest "addr requis (ip:port)".toList)
  else
    let generosity := body.thresholdDays.map fun d => max 0 (min d 3650)
    match (body.peerId.map trim).filter (· ≠ []) with
    | some pid => .ok (.addPeer pid addr DOWN generosity none)
    | none =>
      match handshake with
      | .error e => .error (.badRequest ("handshake échoué: ".toList ++ e))
      | .ok peer => .ok (.addPeer peer.peerId addr ACTIVE generosity peer.publicKey)

@[simp] theorem inserted_id (o : Op) (now : Time) : (o.inserted now).id = o.peerId := by
  cases o <;> rfl

@[simp] theorem updated_id (o : Op) (now : Time) (r : Peer) : (o.updated now r).id = r.id := by
  cases o <;> rfl

@[simp] theorem updated_addr (o : Op) (now : Time) (r : Peer) :
    (o.updated now r).addr = o.addr := by cases o <;> rfl

@[simp] theorem updated_publicKey (o : Op) (now : Time) (r : Peer) :
    (o.updated now r).publicKey = r.publicKey.or o.publicKey := by cases o <;> rfl

/-- The write of a transaction that read `existing`. -/
def Op.write (o : Op) (existing : Option (Option Text)) (now : Time) (t : Table) : Table :=
  match existing with
  | none => t.insert (o.inserted now)
  | some _ =>
    { rows := update (fun r => r.id = o.peerId) (fun r => o.updated now r) t.rows
      unique := by
        rw [update_map Peer.id _ _ (updated_id o now)]
        exact t.unique }

theorem find_insert {t : Table} {r : Peer} (h : t.find r.id = none) (id : Text) :
    (t.insert r).find id = if id = r.id then some r else t.find id := by
  have hno := (lookup_eq_none Peer.id).mp h
  simp only [Table.insert, dif_neg hno, Table.find]
  exact lookup_concat Peer.id hno id

theorem find_update (o : Op) (pinned : Option Text) (now : Time) (t : Table) (id : Text) :
    (o.write (some pinned) now t).find id =
      if id = o.peerId then (t.find id).map fun r => o.updated now r else t.find id :=
  lookup_update Peer.id (updated_id o now) o.peerId id

/-- A write changes the row of its peer only. -/
theorem find_write_other {o : Op} {existing : Option (Option Text)} {now : Time} {t : Table}
    {id : Text} (h : t.pinned o.peerId = existing) (hid : id ≠ o.peerId) :
    (o.write existing now t).find id = t.find id := by
  cases existing with
  | none =>
    have hnone : t.find (o.inserted now).id = none := by
      rw [inserted_id]
      exact Option.map_eq_none_iff.mp h
    rw [Op.write, find_insert hnone, inserted_id, if_neg hid]
  | some pinned => rw [find_update, if_neg hid]

/-- An allowed write leaves a pinned key and sets the address for that key only. -/
theorem find_write_pinned {o : Op} {existing : Option (Option Text)} {now : Time} {t : Table}
    (h : t.pinned o.peerId = existing) (hall : ∀ pinned, existing = some pinned →
      allowed pinned o.publicKey = true) {r : Peer} (hr : t.find o.peerId = some r) {key : Text}
    (hkey : r.publicKey = some key) :
    o.publicKey = some key ∧ ∃ r', (o.write existing now t).find o.peerId = some r' ∧
      r'.publicKey = some key ∧ r'.addr = o.addr := by
  have hex : existing = some (some key) := by
    rw [← h, Table.pinned, hr, Option.map_some, hkey]
  have hok := hall _ hex
  have hpub : o.publicKey = some key := by
    simpa [allowed, eq_comm] using hok
  refine ⟨hpub, o.updated now r, ?_, ?_, updated_addr o now r⟩
  · rw [hex, find_update, if_pos rfl, hr, Option.map_some]
  · rw [updated_publicKey, hkey, Option.some_or]

/-! ### Transactions next to each other -/

inductive Backend where
  | postgres | mysql | sqlite
  deriving DecidableEq, Repr

/-- The statement a transaction is about to run, with what it has read; `seen`: the commits
before its read; `wrote`: the time of its write, none when the guard refused. -/
inductive Pc where
  | select
  | write (existing : Option (Option Text)) (seen : ℕ)
  | commit (existing : Option (Option Text)) (wrote : Option Time)
  | ended (result : Except PeerError Bool)

structure Call where
  op : Op
  pc : Pc

/-- The committed table, the number of commits that wrote, and the transactions so far. -/
structure Db where
  table : Table
  commits : ℕ
  calls : List Call

/-- The peer id a transaction keeps the others from: from `SELECT … FOR UPDATE` or the `INSERT`
on, and on SQLite from its write on. -/
def Call.locked (be : Backend) (c : Call) : Option Text :=
  match c.pc with
  | .write (some _) _ => if be = .sqlite then none else some c.op.peerId
  | .commit _ wrote => if be = .sqlite ∧ wrote = none then none else some c.op.peerId
  | _ => none

/-- On SQLite one writer excludes every other. -/
def Db.blocked (be : Backend) (s : Db) (id : Text) : Prop :=
  ∃ c ∈ s.calls, ∃ id', c.locked be = some id' ∧ (be = .sqlite ∨ id' = id)

instance (be : Backend) (s : Db) (id : Text) : Decidable (s.blocked be id) :=
  decidable_of_iff (s.calls.any fun c => (c.locked be).any fun id' => be = .sqlite || id' = id) (by
    simp [Db.blocked, Option.any_eq_true])

/-- Whether the database refuses the write: a duplicate key, or on SQLite a stale read. -/
def Db.refusesWrite (be : Backend) (s : Db) (o : Op) (existing : Option (Option Text))
    (seen : ℕ) : Bool :=
  if be = .sqlite then seen ≠ s.commits
  else existing.isNone && (s.table.pinned o.peerId).isSome

/-- `fault`: the statement fails and the transaction is rolled back; `now`: the clock. -/
structure Env where
  fault : Bool
  now : Time
  deriving DecidableEq, Repr

/-- Where a transaction is after its next statement; a transaction that waits stays. -/
def Db.next (be : Backend) (s : Db) (e : Env) (o : Op) : Pc → Pc
  | .select =>
    if e.fault then .ended (.error .database)
    else if be ≠ .sqlite ∧ s.table.pinned o.peerId ≠ none ∧ s.blocked be o.peerId then .select
    else .write (s.table.pinned o.peerId) s.commits
  | .write existing seen =>
    if e.fault then .ended (.error .database)
    else if existing.all fun pinned => allowed pinned o.publicKey then
      if s.refusesWrite be o existing seen then .ended (.error .database)
      else if (be = .sqlite ∨ existing = none) ∧ s.blocked be o.peerId then .write existing seen
      else .commit existing (some e.now)
    else .commit existing none
  | .commit _ wrote => if e.fault then .ended (.error .database) else .ended (.ok wrote.isSome)
  | .ended result => .ended result

/-- A commit publishes the write. -/
def Db.publish (s : Db) (e : Env) (c : Call) : Table × ℕ :=
  match c.pc with
  | .commit existing (some now) =>
    if e.fault then (s.table, s.commits) else (c.op.write existing now s.table, s.commits + 1)
  | _ => (s.table, s.commits)

/-- The calls of the two entry points. -/
inductive Request where
  | upsertPeerGuarded (peerId addr : Text) (zone publicKey : Option Text)
  | addPeer (body : AddPeer) (handshake : Except Text VerifiedPeer)

def Request.prepare : Request → Except PeerError Op
  | .upsertPeerGuarded peerId addr zone publicKey =>
    .ok (.upsertPeerGuarded peerId addr zone publicKey)
  | .addPeer body handshake => Pinning.addPeer body handshake

inductive Label where
  | start (q : Request)
  | move (k : ℕ) (e : Env)

def step (be : Backend) (s : Db) : Label → Db
  | .start q =>
    match q.prepare with
    | .error _ => s
    | .ok op => { s with calls := s.calls ++ [⟨op, .select⟩] }
  | .move k e =>
    match s.calls[k]? with
    | none => s
    | some c =>
      { table := (s.publish e c).1
        commits := (s.publish e c).2
        calls := s.calls.set k { c with pc := s.next be e c.op c.pc } }

theorem step_move {be : Backend} {s : Db} {k : ℕ} {c : Call} (h : s.calls[k]? = some c) (e : Env) :
    step be s (.move k e) =
      { table := (s.publish e c).1
        commits := (s.publish e c).2
        calls := s.calls.set k { c with pc := s.next be e c.op c.pc } } := by
  simp only [step, h]

theorem step_start {be : Backend} {s : Db} {q : Request} {op : Op} (h : q.prepare = .ok op) :
    step be s (.start q) = { s with calls := s.calls ++ [⟨op, .select⟩] } := by
  simp only [step, h]

/-- A request refused before its transaction opens none. -/
theorem step_start_error {be : Backend} {s : Db} {q : Request} {e : PeerError}
    (h : q.prepare = .error e) : step be s (.start q) = s := by
  simp only [step, h]

theorem locked_id {be : Backend} {c : Call} {id : Text} (h : c.locked be = some id) :
    id = c.op.peerId := by
  unfold Call.locked at h
  split at h
  · split at h
    · cases h
    · exact (Option.some.inj h).symm
  · split at h
    · cases h
    · exact (Option.some.inj h).symm
  · cases h

/-! ### The invariant -/

/-- Two transactions never keep each other from the same row. -/
def Exclusive (be : Backend) (s : Db) : Prop :=
  ∀ (i j : ℕ) (c c' : Call) (id id' : Text), s.calls[i]? = some c → s.calls[j]? = some c' →
    c.locked be = some id → c'.locked be = some id' → be = .sqlite ∨ id = id' → i = j

/-- What a transaction read still stands, and a write is one the guard allowed. -/
def Knows (be : Backend) (s : Db) (c : Call) : Prop :=
  match c.pc with
  | .write existing seen => seen ≤ s.commits ∧
    (c.locked be ≠ none ∨ be = .sqlite ∧ seen = s.commits → s.table.pinned c.op.peerId = existing)
  | .commit existing wrote =>
    (c.locked be ≠ none → s.table.pinned c.op.peerId = existing) ∧
    (wrote ≠ none → ∀ pinned, existing = some pinned → allowed pinned c.op.publicKey = true)
  | _ => True

structure Inv (be : Backend) (s : Db) : Prop where
  exclusive : Exclusive be s
  knows : ∀ (k : ℕ) (c : Call), s.calls[k]? = some c → Knows be s c

/-- A transaction takes a lock only where no other has it. -/
theorem locked_next {be : Backend} {s : Db} {e : Env} {c : Call} {id : Text}
    (h : Call.locked be { c with pc := s.next be e c.op c.pc } = some id) :
    c.locked be = some id ∨ ¬ s.blocked be id := by
  obtain rfl : id = c.op.peerId := locked_id (c := { c with pc := s.next be e c.op c.pc }) h
  obtain ⟨op, pc⟩ := c
  cases pc with
  | select =>
    right
    intro hb
    simp only [Db.next] at h
    split at h
    · cases h
    · split at h
      · cases h
      · next hno =>
        cases hp : s.table.pinned op.peerId with
        | none =>
          rw [hp] at h
          cases h
        | some pinned =>
          rw [hp] at h
          have hsql : be = .sqlite := by
            by_contra hne
            exact hno ⟨hne, by rw [hp]; exact Option.some_ne_none _, hb⟩
          simp only [Call.locked, if_pos hsql] at h
          cases h
  | write existing seen =>
    simp only [Db.next] at h
    split at h
    · cases h
    · split at h
      · split at h
        · cases h
        · split at h
          · exact .inl h
          · next hno =>
            by_cases hw : be = .sqlite ∨ existing = none
            · exact .inr fun hb => hno ⟨hw, hb⟩
            · left
              obtain ⟨hne, hex⟩ := not_or.mp hw
              obtain ⟨pinned, rfl⟩ := Option.ne_none_iff_exists'.mp hex
              simp only [Call.locked, if_neg hne]
      · next hno =>
        left
        cases existing with
        | none => exact absurd rfl hno
        | some pinned =>
          by_cases hsql : be = .sqlite
          · simp only [Call.locked, hsql, and_self, if_true] at h
            cases h
          · simp only [Call.locked, if_neg hsql]
  | commit existing wrote =>
    simp only [Db.next] at h
    split at h
    · cases h
    · cases h
  | ended result => cases h

theorem exclusive_move {be : Backend} {s : Db} (h : Exclusive be s) {k : ℕ} {c : Call}
    (hk : s.calls[k]? = some c) (e : Env) : Exclusive be (step be s (.move k e)) := by
  have hnew : ∀ (j : ℕ) (c' : Call) (id id' : Text), j ≠ k → s.calls[j]? = some c' →
      Call.locked be { c with pc := s.next be e c.op c.pc } = some id →
      c'.locked be = some id' → ¬ (be = .sqlite ∨ id = id') := by
    intro j c' id id' hj hc' hl hl' hor
    rcases locked_next hl with hold | hfree
    · exact hj (h k j c c' id id' hk hc' hold hl' hor).symm
    · refine hfree ⟨c', List.mem_of_getElem? hc', id', hl', ?_⟩
      exact hor.imp_right Eq.symm
  rw [step_move hk]
  intro i j ci cj id id' hi hj hl hl' hor
  have hlen : k < s.calls.length := (List.getElem?_eq_some_iff.mp hk).1
  by_cases hik : k = i
  · by_cases hjk : k = j
    · omega
    · subst hik
      simp only [List.getElem?_set_self hlen] at hi
      simp only [List.getElem?_set_ne hjk] at hj
      cases hi
      exact absurd hor (hnew j cj id id' (Ne.symm hjk) hj hl hl')
  · by_cases hjk : k = j
    · subst hjk
      simp only [List.getElem?_set_ne hik] at hi
      simp only [List.getElem?_set_self hlen] at hj
      cases hj
      exact absurd (hor.imp_right Eq.symm) (hnew i ci id' id (Ne.symm hik) hi hl' hl)
    · simp only [List.getElem?_set_ne hik] at hi
      simp only [List.getElem?_set_ne hjk] at hj
      exact h i j ci cj id id' hi hj hl hl' hor

/-- The table changes at the commit of an allowed write. -/
theorem publish_cases (s : Db) (e : Env) (c : Call) :
    s.publish e c = (s.table, s.commits) ∨ ∃ existing now, c.pc = .commit existing (some now) ∧
      e.fault = false ∧ s.publish e c = (c.op.write existing now s.table, s.commits + 1) := by
  unfold Db.publish
  split
  · next existing now hpc =>
    cases hf : e.fault with
    | true => exact .inl (if_pos rfl)
    | false =>
      refine .inr ⟨existing, now, hpc, rfl, ?_⟩
      rw [if_neg Bool.false_ne_true]
  · exact .inl rfl

/-- A transaction whose statement is not its commit leaves the table. -/
theorem publish_of_ne {s : Db} {e : Env} {c : Call} (h : ∀ existing wrote, c.pc ≠ .commit existing wrote) :
    s.publish e c = (s.table, s.commits) := by
  rcases publish_cases s e c with hsame | ⟨existing, now, hpc, -, -⟩
  · exact hsame
  · exact absurd hpc (h existing (some now))

theorem knows_mover {be : Backend} {s : Db} {c : Call} (h : Knows be s c) (e : Env) (calls : List Call) :
    Knows be ⟨(s.publish e c).1, (s.publish e c).2, calls⟩
      { c with pc := s.next be e c.op c.pc } := by
  obtain ⟨op, pc⟩ := c
  cases pc with
  | select =>
    rw [publish_of_ne (by intro _ _ hc; cases hc)]
    simp only [Db.next]
    split
    · trivial
    · split
      · trivial
      · exact ⟨le_rfl, fun _ => rfl⟩
  | write existing seen =>
    obtain ⟨hseen, hread⟩ := h
    rw [publish_of_ne (by intro _ _ hc; cases hc)]
    simp only [Db.next]
    split
    · trivial
    · split
      · next hall =>
        split
        · trivial
        · next hno =>
          split
          · exact ⟨hseen, hread⟩
          · refine ⟨fun _ => ?_, fun _ pinned hp => ?_⟩
            · by_cases hsql : be = .sqlite
              · refine hread (.inr ⟨hsql, ?_⟩)
                simpa [Db.refusesWrite, hsql] using hno
              · cases existing with
                | none => simpa [Db.refusesWrite, hsql] using hno
                | some pinned =>
                  refine hread (.inl ?_)
                  simp only [Call.locked, if_neg hsql]
                  exact Option.some_ne_none _
            · rw [hp] at hall
              exact hall
      · next hno =>
        refine ⟨fun hl => ?_, fun hw => absurd rfl hw⟩
        cases existing with
        | none => exact absurd rfl hno
        | some pinned =>
          by_cases hsql : be = .sqlite
          · simp only [Call.locked, hsql, and_self, if_true] at hl
            exact absurd rfl hl
          · refine hread (.inl ?_)
            simp only [Call.locked, if_neg hsql]
            exact Option.some_ne_none _
  | commit existing wrote =>
    simp only [Db.next]
    split
    · trivial
    · trivial
  | ended result => trivial

theorem locked_writer {be : Backend} {op : Op} {existing : Option (Option Text)} {now : Time} :
    Call.locked be ⟨op, .commit existing (some now)⟩ = some op.peerId :=
  if_neg fun h => Option.some_ne_none _ h.2

theorem pinned_write_other {o : Op} {existing : Option (Option Text)} {now : Time} {t : Table}
    {id : Text} (h : t.pinned o.peerId = existing) (hid : id ≠ o.peerId) :
    (o.write existing now t).pinned id = t.pinned id := by
  rw [Table.pinned, find_write_other h hid, Table.pinned]

/-- What one transaction publishes does not touch what another relies on. -/
theorem knows_other {be : Backend} {s : Db} (h : Inv be s) {j k : ℕ} {c d : Call}
    (hk : s.calls[k]? = some c) (hj : s.calls[j]? = some d) (hjk : j ≠ k) (e : Env)
    (calls : List Call) : Knows be ⟨(s.publish e c).1, (s.publish e c).2, calls⟩ d := by
  have hd := h.knows j d hj
  rcases publish_cases s e c with hsame | ⟨existing, now, hpc, -, hpub⟩
  · rw [hsame]
    exact hd
  · rw [hpub]
    obtain ⟨op, pc⟩ := c
    dsimp only at hpc
    subst hpc
    have hex : s.table.pinned op.peerId = existing :=
      (h.knows k _ hk).1 (by rw [locked_writer]; exact Option.some_ne_none _)
    -- a lock of the other transaction is on another row
    have hkeep : d.locked be ≠ none → (op.write existing now s.table).pinned d.op.peerId =
        s.table.pinned d.op.peerId := by
      intro hl
      obtain ⟨id, hid⟩ := Option.ne_none_iff_exists'.mp hl
      obtain rfl := locked_id hid
      refine pinned_write_other hex fun heq => hjk ?_
      exact h.exclusive j k d _ _ _ hj hk hid locked_writer (.inr heq)
    unfold Knows at hd ⊢
    split at hd
    · next existing' seen' hpc' =>
      obtain ⟨hseen, hread⟩ := hd
      refine ⟨Nat.le_succ_of_le hseen, ?_⟩
      rintro (hl | ⟨-, hstale⟩)
      · rw [hkeep hl]
        exact hread (.inl hl)
      · change seen' = s.commits + 1 at hstale
        omega
    · next existing' wrote' hpc' =>
      refine ⟨fun hl => ?_, hd.2⟩
      rw [hkeep hl]
      exact hd.1 hl
    · trivial

theorem inv_step {be : Backend} {s : Db} (h : Inv be s) (l : Label) : Inv be (step be s l) := by
  cases l with
  | start q =>
    cases hq : q.prepare with
    | error _ =>
      rw [step_start_error hq]
      exact h
    | ok op =>
      rw [step_start hq]
      have hold : ∀ (i : ℕ) (c : Call), (s.calls ++ [⟨op, .select⟩])[i]? = some c →
          s.calls[i]? = some c ∨ c = ⟨op, .select⟩ := by
        intro i c hc
        rcases lt_trichotomy i s.calls.length with hi | hi | hi
        · rw [List.getElem?_append_left hi] at hc
          exact .inl hc
        · subst hi
          rw [List.getElem?_concat_length] at hc
          exact .inr (Option.some.inj hc).symm
        · rw [List.getElem?_eq_none (by rw [List.length_append, List.length_singleton]; omega)] at hc
          cases hc
      constructor
      · intro i j c c' id id' hi hj hl hl' hor
        rcases hold i c hi with hi | rfl
        · rcases hold j c' hj with hj | rfl
          · exact h.exclusive i j c c' id id' hi hj hl hl' hor
          · cases hl'
        · cases hl
      · intro k c hk
        rcases hold k c hk with hk | rfl
        · exact h.knows k c hk
        · trivial
  | move k e =>
    cases hk : s.calls[k]? with
    | none =>
      have hsame : step be s (.move k e) = s := by simp only [step, hk]
      rw [hsame]
      exact h
    | some c =>
      refine ⟨exclusive_move h.exclusive hk e, fun j d hj => ?_⟩
      rw [step_move hk] at hj ⊢
      have hlen : k < s.calls.length := (List.getElem?_eq_some_iff.mp hk).1
      by_cases hjk : k = j
      · subst hjk
        simp only [List.getElem?_set_self hlen] at hj
        cases hj
        exact knows_mover (h.knows k c hk) e _
      · simp only [List.getElem?_set_ne hjk] at hj
        exact knows_other h hk hj (Ne.symm hjk) e _

/-- A table with no transaction in progress. -/
def opened (t : Table) : Db := ⟨t, 0, []⟩

theorem inv_run (be : Backend) (t : Table) (ls : List Label) :
    Inv be (run (step be) (opened t) ls) := by
  have hstart : Inv be (opened t) := by
    constructor
    · intro i _ c _ _ _ hi
      cases (List.mem_nil_iff c).mp (List.mem_of_getElem? hi)
    · intro k c hk
      cases (List.mem_nil_iff c).mp (List.mem_of_getElem? hk)
  exact run_invariant (I := Inv be) (fun _ l h _ => inv_step h l) hstart
    (allMeet_of_forall (Q := fun _ => True) fun _ _ => trivial)

/-! ### What a run keeps -/

/-- A step that changes the table is the commit of an allowed write. -/
theorem step_table {be : Backend} {s : Db} (h : Inv be s) (l : Label) :
    (step be s l).table = s.table ∨ ∃ k e op existing now, l = .move k e ∧
      s.calls[k]? = some ⟨op, .commit existing (some now)⟩ ∧
      s.table.pinned op.peerId = existing ∧
      (∀ pinned, existing = some pinned → allowed pinned op.publicKey = true) ∧
      (step be s l).table = op.write existing now s.table ∧
      (step be s l).calls[k]? = some ⟨op, .ended (.ok true)⟩ := by
  cases l with
  | start q =>
    left
    cases hq : q.prepare with
    | error _ => rw [step_start_error hq]
    | ok op => rw [step_start hq]
  | move k e =>
    cases hk : s.calls[k]? with
    | none =>
      left
      simp only [step, hk]
    | some c =>
      rw [step_move hk]
      rcases publish_cases s e c with hsame | ⟨existing, now, hpc, hf, hpub⟩
      · left
        rw [hsame]
      · right
        obtain ⟨op, pc⟩ := c
        dsimp only at hpc
        subst hpc
        obtain ⟨hread, hall⟩ := h.knows k _ hk
        have hlen : k < s.calls.length := (List.getElem?_eq_some_iff.mp hk).1
        refine ⟨k, e, op, existing, now, rfl, hk, hread ?_, hall (Option.some_ne_none _), ?_, ?_⟩
        · rw [locked_writer]
          exact Option.some_ne_none _
        · rw [hpub]
        · simp only [List.getElem?_set_self hlen, Db.next, hf, Bool.false_eq_true, if_false,
            Option.isSome_some]

/-- What a step does to the row of a pinned peer: `l` commits a write that presented the key. -/
def Repointed (s : Db) (l : Label) (id key addr : Text) : Prop :=
  ∃ k e op existing now, l = .move k e ∧ s.calls[k]? = some ⟨op, .commit existing (some now)⟩ ∧
    op.peerId = id ∧ op.publicKey = some key ∧ op.addr = addr

theorem step_pinned {be : Backend} {s : Db} (h : Inv be s) (l : Label) {id key : Text} {r : Peer}
    (hr : s.table.find id = some r) (hkey : r.publicKey = some key) :
    ∃ r', (step be s l).table.find id = some r' ∧ r'.publicKey = some key ∧
      (r' = r ∨ Repointed s l id key r'.addr) := by
  rcases step_table h l with hsame | ⟨k, e, op, existing, now, rfl, hk, hread, hall, hwrote, -⟩
  · exact ⟨r, by rw [hsame]; exact hr, hkey, .inl rfl⟩
  · rw [hwrote]
    by_cases hid : id = op.peerId
    · subst hid
      obtain ⟨hpub, r', hr', hkey', haddr⟩ := find_write_pinned hread hall hr hkey
      exact ⟨r', hr', hkey', .inr ⟨k, e, op, existing, now, rfl, hk, rfl, hpub, haddr.symm⟩⟩
    · exact ⟨r, by rw [find_write_other hread hid]; exact hr, hkey, .inl rfl⟩

theorem run_pinned {be : Backend} {s : Db} (h : Inv be s) (ls : List Label) {id key : Text}
    (hr : s.table.pinned id = some (some key)) :
    (run (step be) s ls).table.pinned id = some (some key) := by
  induction ls generalizing s with
  | nil => exact hr
  | cons l ls ih =>
    refine ih (inv_step h l) ?_
    obtain ⟨r, hfind, hkey⟩ := Option.map_eq_some_iff.mp hr
    obtain ⟨r', hfind', hkey', -⟩ := step_pinned h l hfind hkey
    rw [Table.pinned, hfind', Option.map_some, hkey']

/-- A transaction that is over stays so. -/
theorem run_over {be : Backend} {s : Db} {k : ℕ} {op : Op} {result : Except PeerError Bool}
    (h : s.calls[k]? = some ⟨op, .ended result⟩) (ls : List Label) :
    (run (step be) s ls).calls[k]? = some ⟨op, .ended result⟩ := by
  induction ls generalizing s with
  | nil => exact h
  | cons l ls ih =>
    apply ih
    have hlen : k < s.calls.length := (List.getElem?_eq_some_iff.mp h).1
    cases l with
    | start q =>
      cases hq : q.prepare with
      | error _ =>
        rw [step_start_error hq]
        exact h
      | ok op' =>
        rw [step_start hq]
        simp only [List.getElem?_append_left hlen, h]
    | move j e =>
      cases hj : s.calls[j]? with
      | none =>
        simp only [step, hj]
        exact h
      | some c =>
        rw [step_move hj]
        by_cases hjk : j = k
        · subst hjk
          rw [h] at hj
          cases hj
          simp only [List.getElem?_set_self hlen, Db.next]
        · simp only [List.getElem?_set_ne hjk]
          exact h

/-- From any table, on any of the databases: a pinned key stays; where a later step changes the
row, it is the commit of a write that presented that key; the steps of a transaction that is
refused or fails leave the table as it is. -/
theorem run_pins (be : Backend) (t : Table) (ls : List Label) :
    (∀ id key, (run (step be) (opened t) ls).table.pinned id = some (some key) →
      ∀ ls', (run (step be) (opened t) (ls ++ ls')).table.pinned id = some (some key)) ∧
    (∀ l id key r, (run (step be) (opened t) ls).table.find id = some r →
      r.publicKey = some key → ∃ r', (step be (run (step be) (opened t) ls) l).table.find id = some r' ∧
        (r' = r ∨ Repointed (run (step be) (opened t) ls) l id key r'.addr)) ∧
    (∀ k e ls' op result,
      (run (step be) (opened t) (ls ++ .move k e :: ls')).calls[k]? = some ⟨op, .ended result⟩ →
      result ≠ .ok true →
      (step be (run (step be) (opened t) ls) (.move k e)).table =
        (run (step be) (opened t) ls).table) := by
  have hinv := inv_run be t ls
  have happ : ∀ ls', run (step be) (opened t) (ls ++ ls') =
      run (step be) (run (step be) (opened t) ls) ls' := fun ls' => List.foldl_append ..
  refine ⟨fun id key hp ls' => ?_, fun l id key r hr hkey => ?_, fun k e ls' op result hover hne => ?_⟩
  · rw [happ]
    exact run_pinned hinv ls' hp
  · obtain ⟨r', hr', -, hcase⟩ := step_pinned hinv l hr hkey
    exact ⟨r', hr', hcase⟩
  · rcases step_table hinv (.move k e) with hsame | ⟨j, e', op', _, _, hl, -, -, -, -, hdone⟩
    · exact hsame
    · cases hl
      rw [happ] at hover
      have hlast := @run_over be _ _ _ _ hdone ls'
      change (run (step be) (run (step be) (opened t) ls) (.move k e :: ls')).calls[k]? = _ at hlast
      rw [hover] at hlast
      cases hlast
      exact absurd rfl hne

-- a pinned peer announced by another node from its own address: refused, the row stays
example : let r := Op.inserted 0 (.upsertPeerGuarded "A".toList "10.0.0.2:7474".toList none
      (some "KEY1".toList))
    let e : Env := ⟨false, 1⟩
    let s := run (step .sqlite) (opened ⟨[r], by decide⟩)
      [.start (.upsertPeerGuarded "A".toList "6.6.6.6:7474".toList none (some "EVIL".toList)),
        .move 0 e, .move 0 e, .move 0 e]
    s.table.rows = [r] ∧ s.calls.map (fun c => match c.pc with
      | .ended (.ok applied) => applied
      | _ => true) = [false] := by decide

end P2pnas.Node.Pinning
