import Mathlib.Data.List.Sort
import P2pnas.Lib.Tables
import P2pnas.Store.Manifest

/-!
# The peer table and outgoing shards

The columns of `p2pnas.peers` that choosing a host reads, and the `StoreShard` messages a
node sends. A reliability score is the integer `f64::total_cmp` orders it by.
-/

namespace P2pnas.Node.Peers
open P2pnas.Lib.Frames P2pnas.Lib.Strings P2pnas.Lib.Tables P2pnas.Store.Manifest

structure PeerRow where
  peerId : Text
  addr : Text
  status : Text
  country : Option Text
  zone : Option Text
  reliability : ℤ
  deriving DecidableEq, Repr

def DOWN : Text := "down".toList

/-- `p2pnas.peers`: the peer id is the primary key. -/
structure PeerTable where
  rows : List PeerRow
  unique : (rows.map PeerRow.peerId).Nodup

/-- `SELECT … FROM peers WHERE peer_id <> me`, no rows when it fails. -/
def PeerTable.others (t : PeerTable) (works : Bool) (me : Text) : List PeerRow :=
  if works then t.rows.filter fun r => r.peerId ≠ me else []

/-- The country recorded for a peer. -/
def PeerTable.countryOf (t : PeerTable) (peerId : Text) : Option Text :=
  (t.rows.find? fun r => r.peerId = peerId).bind PeerRow.country

/-- `UPDATE peers SET country = c WHERE peer_id = id`. -/
def PeerTable.setCountry (t : PeerTable) (peerId country : Text) : PeerTable where
  rows := update (fun r => r.peerId = peerId) (fun r => { r with country := some country }) t.rows
  unique := by
    have hkeys := update_map PeerRow.peerId (fun r => r.peerId = peerId)
      (fun r => { r with country := some country }) (fun _ => rfl) t.rows
    rw [hkeys]
    exact t.unique

theorem PeerTable.countryOf_row (t : PeerTable) {r : PeerRow} (hr : r ∈ t.rows) :
    t.countryOf r.peerId = r.country := by
  have hfind := find?_eq_some t.unique (p := fun r' => r'.peerId = r.peerId) hr (by simp)
    (fun r' h => by simpa using h)
  rw [countryOf, hfind, Option.bind_some]

theorem PeerTable.countryOf_setCountry_same (t : PeerTable) {r : PeerRow} (hr : r ∈ t.rows)
    (c : Text) : (t.setCountry r.peerId c).countryOf r.peerId = some c := by
  have hmem : { r with country := some c } ∈ (t.setCountry r.peerId c).rows :=
    mem_update.mpr ⟨r, hr, .inl ⟨by simp, rfl⟩⟩
  exact countryOf_row _ hmem

theorem PeerTable.countryOf_setCountry_other (t : PeerTable) {id id' : Text} (h : id' ≠ id)
    (c : Text) : (t.setCountry id c).countryOf id' = t.countryOf id' := by
  have hsel : ((fun r : PeerRow => decide (r.peerId = id')) ∘
      fun r => if decide (r.peerId = id) then { r with country := some c } else r) =
      fun r => decide (r.peerId = id') := by
    funext r
    simp only [Function.comp_apply]
    split <;> rfl
  simp only [countryOf, setCountry, update, List.find?_map, hsel]
  cases hf : t.rows.find? fun r => decide (r.peerId = id') with
  | none => rfl
  | some r =>
    have hid : r.peerId = id' := by simpa using List.find?_some hf
    simp [hid, h]

/-- A `StoreShard` request and the row of the peer it was addressed to. -/
structure Sent where
  peerId : Text
  addr : Text
  fragmentId : Text
  shardIndex : ℤ
  data : Bytes
  deriving DecidableEq, Repr

/-- `Ord` of `(String, String)`. -/
def pairLe (a b : Text × Text) : Bool :=
  if a.1 = b.1 then textLe a.2 b.2 else textLe a.1 b.1

end P2pnas.Node.Peers
