import P2pnas.Dht.Overlay

/-!
# What the buckets hold after any history (`dht.rs:214-231`, `261-354`, `528-547`)

Entries enter by `add`, alone or from a snapshot, and are marked once their address is proved. In
whatever order this happens, an entry is in the bucket of its id and nowhere else, and `add` changes
nothing but the entry of the id it was given and at most one more of the same bucket.
-/

namespace P2pnas.Dht.Buckets
open P2pnas.Lib.Frames P2pnas.Lib.Runs P2pnas.Dht.Table P2pnas.Dht.Overlay
open P2pnas.Dht.Table.RoutingTable

inductive Call where
  | add (node : Node)
  | markVerified (addr : SocketAddr) (now : Instant)
  | importNodes (snapshot : List PersistNode) (now : Instant)

variable (cfg : Config)

def step (st : Overlay) : Call → Overlay
  | .add node => { st with table := (st.table.add node).1 }
  | .markVerified addr now => { st with table := st.table.markVerified addr now }
  | .importNodes snapshot now => importNodes cfg snapshot now st

/-- The entries of the table, each in its place. -/
structure Represented (t : RoutingTable) : Prop where
  size : t.buckets.length = 160
  bounded : ∀ b ∈ t.buckets, b.length ≤ K
  once : (t.all.map Node.id).Nodup
  placed : ∀ i b, t.buckets[i]? = some b → ∀ n ∈ b, bucketIndex (xor t.selfId n.id) = some i
  others : ∀ n ∈ t.all, n.id ≠ t.selfId

/-- The table has an entry with the id. -/
def Has (t : RoutingTable) (id : NodeId) : Prop := ∃ n ∈ t.all, n.id = id

/-- An entry under another id that `add` dropped. -/
def Dropped (t : RoutingTable) (node e : Node) : Prop :=
  e ∈ t.all ∧ e.id ≠ node.id ∧ e ∉ (t.add node).1.all

/-- What `add` does: it returns whether the id is new, and drops at most one other entry, of the
bucket of the id. -/
structure Adds (t : RoutingTable) (node : Node) : Prop where
  reports : (t.add node).2 = true ↔ ¬Has t node.id ∧ Has (t.add node).1 node.id
  one : ∀ e e', Dropped t node e → Dropped t node e' → e = e'
  near : ∀ e, Dropped t node e → bucketIndex (xor t.selfId e.id) = bucketIndex (xor t.selfId node.id)
  gains : ∀ e ∈ (t.add node).1.all, e.id ≠ node.id → e ∈ t.all

/-! ### The places of a filed table -/

section
variable {t : RoutingTable} {node : Node}

theorem bucketIndexFrom_zero (i n : ℕ) : bucketIndexFrom i (List.replicate n 0) = none := by
  induction n generalizing i with
  | zero => rfl
  | succ n ih =>
    rw [List.replicate_succ, bucketIndexFrom, if_neg (not_not.mpr rfl)]
    exact ih (i + 1)

/-- The node itself has no bucket. -/
theorem bucketIndex_self (id : NodeId) : bucketIndex (xor id id) = none := by
  have hzero : (xor id id).bytes = List.replicate id.bytes.length 0 := by
    change List.zipWith (· ^^^ ·) id.bytes id.bytes = _
    rw [List.zipWith_self]
    simp only [UInt8.xor_self, List.map_const']
  rw [bucketIndex, hzero]
  exact bucketIndexFrom_zero 0 _

theorem bucketAt_getElem {i : ℕ} {b : List Node} (h : t.buckets[i]? = some b) : t.bucketAt i = b := by
  rw [bucketAt, List.getD_eq_getElem?_getD, h, Option.getD_some]

theorem Filed.represented (h : Filed t) : Represented t := by
  have hplaced : ∀ i b, t.buckets[i]? = some b → ∀ n ∈ b, bucketIndex (xor t.selfId n.id) = some i := by
    intro i b hb n hn
    exact h.home i n (bucketAt_getElem hb ▸ hn)
  refine ⟨h.size, fun b hb => ?_, ?_, hplaced, fun n hn hself => ?_⟩
  · obtain ⟨i, hi⟩ := List.mem_iff_getElem?.mp hb
    exact bucketAt_getElem hi ▸ h.bounded i
  · rw [all, List.map_flatten]
    refine List.nodup_flatten.mpr ⟨fun ids hids => ?_, ?_⟩
    · obtain ⟨b, hb, rfl⟩ := List.mem_map.mp hids
      obtain ⟨i, hi⟩ := List.mem_iff_getElem?.mp hb
      exact bucketAt_getElem hi ▸ h.unique i
    · rw [List.pairwise_map, List.pairwise_iff_getElem]
      intro i j hi hj hij id hid hid'
      obtain ⟨n, hn, rfl⟩ := List.mem_map.mp hid
      obtain ⟨m, hm, hmid⟩ := List.mem_map.mp hid'
      have hni := hplaced i _ (List.getElem?_eq_getElem hi) n hn
      have hmj := hplaced j _ (List.getElem?_eq_getElem hj) m hm
      rw [hmid, hni] at hmj
      cases hmj
      exact Nat.lt_irrefl _ hij
  · obtain ⟨i, hi⟩ := bucketAt_of_mem hn
    have hhome := h.home i n hi
    rw [indexOf, hself, bucketIndex_self] at hhome
    cases hhome

/-! ### One `add` -/

/-- The buckets after `add`. -/
theorem Filed.add_bucketAt (h : Filed t) {i : ℕ} (hi : t.indexOf node.id = some i) (j : ℕ) :
    (t.add node).1.bucketAt j = if j = i then (addTo (t.bucketAt i) node).1 else t.bucketAt j := by
  rcases add_eq t node with ⟨hnone, -⟩ | ⟨k, hk, heq⟩
  · rw [hi] at hnone
    cases hnone
  · cases hk.symm.trans hi
    rw [heq, bucketAt_set (h.index_lt hi)]

theorem addTo_drops {b : List Node} {e : Node} (he : e ∈ b) (hid : e.id ≠ node.id)
    (hout : e ∉ (addTo b node).1) : ∃ i, victim node.lastSeen b = some (e, i) := by
  rcases addTo_cases b node with ⟨x, -, -, heq⟩ | ⟨-, ⟨-, heq⟩ | ⟨-, ⟨v, i, hv, heq⟩ | ⟨-, heq⟩⟩⟩
  · rw [heq] at hout
    have hkept : e ∈ b.eraseP fun n => n.id = node.id :=
      (List.mem_eraseP_of_neg (by simpa using hid)).mpr he
    exact absurd (List.mem_append_left _ hkept) hout
  · rw [heq] at hout
    exact absurd (List.mem_append_left _ he) hout
  · obtain ⟨hget, -, -⟩ := victim_some hv
    obtain ⟨j, hj⟩ := List.mem_iff_getElem?.mp he
    by_cases hij : i = j
    · subst hij
      cases hget.symm.trans hj
      exact ⟨i, hv⟩
    · rw [heq] at hout
      refine absurd (List.mem_of_getElem? (i := j) ?_) hout
      rw [List.getElem?_set_ne hij, hj]
  · rw [heq] at hout
    exact absurd he hout

/-- What `add` drops is the victim of the bucket of the id. -/
theorem Filed.dropped (h : Filed t) {e : Node} (hd : Dropped t node e) :
    ∃ i j, t.indexOf node.id = some i ∧ e ∈ t.bucketAt i ∧
      victim node.lastSeen (t.bucketAt i) = some (e, j) := by
  obtain ⟨he, hid, hout⟩ := hd
  rcases add_eq t node with ⟨-, heq⟩ | ⟨i, hi, -⟩
  · rw [heq] at hout
    exact absurd he hout
  obtain ⟨k, hk⟩ := bucketAt_of_mem he
  have hki : k = i := by
    by_contra hne
    refine hout (mem_all_of_bucketAt (i := k) ?_)
    rw [Filed.add_bucketAt h hi, if_neg hne]
    exact hk
  subst hki
  have hlost : e ∉ (addTo (t.bucketAt k) node).1 := by
    intro hmem
    refine hout (mem_all_of_bucketAt (i := k) ?_)
    rw [Filed.add_bucketAt h hi, if_pos rfl]
    exact hmem
  obtain ⟨j, hj⟩ := addTo_drops hk hid hlost
  exact ⟨k, j, hi, hk, hj⟩

/-- A new id is one that was absent and is present now. -/
theorem Filed.add_reports (h : Filed t) (node : Node) :
    (t.add node).2 = true ↔ ¬Has t node.id ∧ Has (t.add node).1 node.id := by
  rcases add_eq t node with ⟨hnone, heq⟩ | ⟨i, hi, heq⟩
  · have habsent : ¬Has t node.id := by
      rintro ⟨n, hn, hid⟩
      obtain ⟨j, hj⟩ := bucketAt_of_mem hn
      have hhome := h.home j n hj
      rw [hid, hnone] at hhome
      cases hhome
    rw [heq]
    exact ⟨nofun, fun hboth => absurd hboth.2 habsent⟩
  · have hres : (t.add node).2 = (addTo (t.bucketAt i) node).2 := by rw [heq]
    have hat := Filed.add_bucketAt h hi i
    rw [if_pos rfl] at hat
    have hnow : ∀ n ∈ (addTo (t.bucketAt i) node).1, n ∈ (t.add node).1.all := by
      intro n hn
      exact mem_all_of_bucketAt (i := i) (hat ▸ hn)
    have hin : Has t node.id ↔ ∃ e ∈ t.bucketAt i, e.id = node.id := by
      constructor
      · rintro ⟨n, hn, hid⟩
        obtain ⟨j, hj⟩ := bucketAt_of_mem hn
        have hhome := h.home j n hj
        rw [hid, hi] at hhome
        cases hhome
        exact ⟨n, hj, hid⟩
      · rintro ⟨n, hn, hid⟩
        exact ⟨n, mem_all_of_bucketAt hn, hid⟩
    have hin' : Has (t.add node).1 node.id ↔ ∃ e ∈ (addTo (t.bucketAt i) node).1, e.id = node.id := by
      constructor
      · rintro ⟨n, hn, hid⟩
        obtain ⟨j, hj⟩ := bucketAt_of_mem hn
        have hself : (t.add node).1.indexOf n.id = some j := (h.add node).home j n hj
        have hsame : (t.add node).1.indexOf n.id = some i := by
          rw [hid, heq]
          exact hi
        cases hself.symm.trans hsame
        exact ⟨n, hat ▸ hj, hid⟩
      · rintro ⟨n, hn, hid⟩
        exact ⟨n, hnow n hn, hid⟩
    rw [hres, hin, hin']
    rcases addTo_cases (t.bucketAt i) node with
      ⟨x, hx, hid, hadd⟩ | ⟨hne, ⟨-, hadd⟩ | ⟨-, ⟨v, j, hv, hadd⟩ | ⟨-, hadd⟩⟩⟩
    · rw [hadd]
      exact ⟨nofun, fun hboth => absurd ⟨x, hx, hid⟩ hboth.1⟩
    · rw [hadd]
      refine ⟨fun _ => ⟨fun ⟨e, he, hid⟩ => hne e he hid, node, ?_, rfl⟩, fun _ => rfl⟩
      exact List.mem_append_right _ (List.mem_singleton.mpr rfl)
    · rw [hadd]
      refine ⟨fun _ => ⟨fun ⟨e, he, hid⟩ => hne e he hid, node, ?_, rfl⟩, fun _ => rfl⟩
      obtain ⟨hget, -, -⟩ := victim_some hv
      exact List.mem_set (List.getElem?_eq_some_iff.mp hget).1 node
    · rw [hadd]
      exact ⟨nofun, fun hboth => absurd hboth.2 fun ⟨e, he, hid⟩ => hne e he hid⟩

theorem Filed.adds (h : Filed t) (node : Node) : Adds t node := by
  refine ⟨Filed.add_reports h node, fun e e' hd hd' => ?_, fun e hd => ?_, fun e he hid => ?_⟩
  · obtain ⟨i, j, hi, -, hv⟩ := Filed.dropped h hd
    obtain ⟨i', j', hi', -, hv'⟩ := Filed.dropped h hd'
    cases hi.symm.trans hi'
    cases hv.symm.trans hv'
    rfl
  · obtain ⟨i, -, hi, hin, -⟩ := Filed.dropped h hd
    have hhome := h.home i e hin
    exact hhome.trans hi.symm
  · rcases mem_add he with hold | rfl | ⟨x, -, hx, rfl⟩
    · exact hold
    · exact absurd rfl hid
    · exact absurd ((refreshed_id x).trans hx) hid

end

/-! ### Any history -/

/-- A snapshot is read by adds, one after the other. -/
theorem importNodes_adds (snapshot : List PersistNode) (now : Instant) (st : Overlay) :
    ∃ nodes : List Node, step cfg st (.importNodes snapshot now) = run (step cfg) st (nodes.map .add) := by
  rw [step, importNodes]
  induction snapshot.take MAX_PERSIST_NODES generalizing st with
  | nil => exact ⟨[], rfl⟩
  | cons r rs ih =>
    rw [List.foldl_cons]
    split
    · next id ip _ _ =>
      split
      · exact ih st
      · obtain ⟨nodes, hnodes⟩ := ih (step cfg st (.add ⟨id, .new ip r.udpPort, r.p2pPort, false, now⟩))
        exact ⟨_ :: nodes, hnodes⟩
    · exact ih st

theorem step_filed (st : Overlay) (c : Call) (h : Filed st.table) : Filed (step cfg st c).table := by
  cases c with
  | add node => exact h.add node
  | markVerified addr now => exact h.markVerified addr now
  | importNodes snapshot now =>
    obtain ⟨nodes, hnodes⟩ := importNodes_adds cfg snapshot now st
    rw [hnodes]
    clear hnodes
    induction nodes generalizing st with
    | nil => exact h
    | cons node nodes ih => exact ih (step cfg st (.add node)) (h.add node)

/-- The table after the calls, from an empty one. -/
def after (calls : List Call) : RoutingTable := (run (step cfg) (start cfg) calls).table

theorem after_filed (calls : List Call) : Filed (after cfg calls) :=
  run_invariant (I := fun st => Filed st.table) (fun st c h _ => step_filed cfg st c h)
    (Filed.new cfg.selfId) (allMeet_of_forall (Q := fun _ => True) fun _ _ => trivial)

theorem add_selfId (t : RoutingTable) (node : Node) : (t.add node).1.selfId = t.selfId := by
  rcases add_eq t node with ⟨-, heq⟩ | ⟨i, -, heq⟩
  · rw [heq]
  · rw [heq]

theorem step_selfId (st : Overlay) (c : Call) : (step cfg st c).table.selfId = st.table.selfId := by
  cases c with
  | add node => exact add_selfId st.table node
  | markVerified addr now => rfl
  | importNodes snapshot now =>
    obtain ⟨nodes, hnodes⟩ := importNodes_adds cfg snapshot now st
    rw [hnodes]
    clear hnodes
    induction nodes generalizing st with
    | nil => rfl
    | cons node nodes ih => exact (ih _).trans (add_selfId st.table node)

theorem after_selfId (calls : List Call) : (after cfg calls).selfId = cfg.selfId :=
  run_invariant (I := fun st => st.table.selfId = cfg.selfId)
    (fun st c h _ => (step_selfId cfg st c).trans h) rfl
    (allMeet_of_forall (Q := fun _ => True) fun _ _ => trivial)

/-- After any history there are 160 buckets of at most `K` entries, every id is in the table at most
once and in its bucket, the node itself is not there, and the next `add` says truly whether its id is
new and drops at most one other entry, of the same bucket. -/
theorem run_represented (calls : List Call) :
    Represented (after cfg calls) ∧ (after cfg calls).selfId = cfg.selfId ∧
      ∀ node : Node, Adds (after cfg calls) node :=
  ⟨Filed.represented (after_filed cfg calls), after_selfId cfg calls,
    Filed.adds (after_filed cfg calls)⟩

end P2pnas.Dht.Buckets
