import Mathlib.Data.List.Forall2
import P2pnas.Lib.Strings

/-!
# What the core crate takes from its libraries

The content pipeline calls HKDF-SHA256 and AES-256-GCM (`aws-lc-rs`), zstd, a Reed-Solomon
coder (`reed-solomon-simd`) and BLAKE3. Their code is not part of the repository, so they
are the fields of one parameter, `Prims`, and the properties a result relies on are stated
as separate predicates. `K` is the type of 32-byte keys: every derived key is again one.
-/

namespace P2pnas.Core.Base
open P2pnas.Lib.Frames

/-- Errors of the core crate (`error.rs:3-13`). -/
inductive CoreError where
  | crypto (what : String)
  | compression (what : String)
  | erasure (what : String)
  | io
  deriving DecidableEq, Repr

/-- How a call ends without a value: it panics, or it returns an error. -/
inductive Stop (ε : Type) where
  | panic
  | err (e : ε)
  deriving DecidableEq, Repr

abbrev Outcome (ε α : Type) := Except (Stop ε) α

def fail {ε α : Type} (e : ε) : Outcome ε α := .error (.err e)

/-- An `Option` of a library call, with the error the caller maps it to. -/
def orFail {ε α : Type} (e : ε) : Option α → Outcome ε α
  | some a => .ok a
  | none => fail e

@[simp] theorem orFail_some {ε α : Type} (e : ε) (a : α) : orFail e (some a) = .ok a := rfl

/-- An index or a range that the value may not have: without it the program panics. -/
def inBounds {ε α : Type} : Option α → Outcome ε α
  | some a => .ok a
  | none => .error .panic

@[simp] theorem inBounds_some {ε α : Type} (a : α) : (inBounds (some a) : Outcome ε α) = .ok a := rfl

/-- `?` on an error of an inner crate: the error is wrapped, a panic stays one. -/
def wrapErr {ε ε' α : Type} (f : ε → ε') : Outcome ε α → Outcome ε' α
  | .ok a => .ok a
  | .error .panic => .error .panic
  | .error (.err e) => fail (f e)

@[simp] theorem wrapErr_ok {ε ε' α : Type} (f : ε → ε') (a : α) :
    wrapErr f (.ok a : Outcome ε α) = .ok a := rfl

theorem wrapErr_eq_ok {ε ε' α : Type} {f : ε → ε'} {x : Outcome ε α} {a : α}
    (h : wrapErr f x = .ok a) : x = .ok a := by
  cases x with
  | ok b => exact congrArg Except.ok (Except.ok.inj h)
  | error s => cases s <;> cases h

/- A bind that returns a value got one from its first part. -/
theorem bind_eq_ok {ε α β : Type} {x : Except ε α} {f : α → Except ε β} {b : β}
    (h : x >>= f = .ok b) : ∃ a, x = .ok a ∧ f a = .ok b := by
  cases x with
  | error e => cases h
  | ok a => exact ⟨a, rfl, h⟩

@[simp] theorem ok_bind {ε α β : Type} (a : α) (f : α → Except ε β) :
    (Except.ok a >>= f) = f a := rfl

theorem orFail_eq_ok {ε α : Type} {e : ε} {o : Option α} {a : α}
    (h : orFail e o = .ok a) : o = some a := by
  cases o with
  | none => cases h
  | some b => exact congrArg some (Except.ok.inj h)

/-- Run one call after the other and keep the results in order; the first error ends it. -/
def collect {m : Type → Type} [Monad m] {α β : Type} (f : α → m β) : List α → m (List β)
  | [] => pure []
  | a :: as => do
    let b ← f a
    let bs ← collect f as
    return b :: bs

theorem collect_map {m : Type → Type} [Monad m] {α β γ : Type} (f : β → m γ) (g : α → β) (as : List α) :
    collect f (as.map g) = collect (fun a => f (g a)) as := by
  induction as with
  | nil => rfl
  | cons a as ih => rw [List.map_cons, collect, collect, ih]

theorem collect_eq_ok {ε α β : Type} {f : α → Except ε β} {as : List α} {bs : List β}
    (h : collect f as = .ok bs) : List.Forall₂ (fun a b => f a = .ok b) as bs := by
  induction as generalizing bs with
  | nil => cases h; exact .nil
  | cons a as ih =>
    obtain ⟨b, hb, h⟩ := bind_eq_ok h
    obtain ⟨cs, hcs, h⟩ := bind_eq_ok h
    cases h
    exact .cons hb (ih hcs)

theorem collect_of_forall₂ {ε α β : Type} {f : α → Except ε β} {as : List α} {bs : List β}
    (h : List.Forall₂ (fun a b => f a = .ok b) as bs) : collect f as = .ok bs := by
  induction h with
  | nil => rfl
  | cons hb _ ih => rw [collect, hb, ok_bind, ih]; rfl

theorem collect_congr {ε α β : Type} {f g : α → Except ε β} {as : List α}
    (h : ∀ a ∈ as, f a = g a) : collect f as = collect g as := by
  induction as with
  | nil => rfl
  | cons a as ih =>
    simp only [collect, h a (List.mem_cons_self ..), ih fun b hb => h b (List.mem_cons_of_mem _ hb)]

/-- The library calls of the core crate. -/
structure Prims (K : Type) where
  /-- HKDF-SHA256 extract with the salt and expand with the info, 32 bytes out. -/
  hkdf : Bytes → K → Bytes → K
  /-- `seal_in_place_append_tag`: key, nonce, additional data, plaintext. -/
  sealInPlace : K → Bytes → Bytes → Bytes → Option Bytes
  /-- `open_in_place`: key, nonce, additional data, ciphertext with its tag. -/
  openInPlace : K → Bytes → Bytes → Bytes → Option Bytes
  /-- `zstd::encode_all` at a level. -/
  zstdEncode : ℤ → Bytes → Option Bytes
  zstdDecode : Bytes → Option Bytes
  /-- `sample_entropy(sample) >= entropy_skip` (`chunker.rs:33-50`), a comparison of
  floating-point numbers. -/
  entropyAtLeast : Bytes → Bool
  /-- `reed_solomon_simd::encode` for 10 + 4 shards. -/
  rsEncode : List Bytes → Option (List Bytes)
  /-- `reed_solomon_simd::decode` for 10 + 4 shards: the originals and recovery shards held,
  each with its index; the answer maps an index to a restored original. -/
  rsDecode : List (ℕ × Bytes) → List (ℕ × Bytes) → Option (List (ℕ × Bytes))
  blake3 : Bytes → Bytes

variable {K : Type} (P : Prims K)

/-- Opening inverts sealing under the same key, nonce and additional data. -/
def AeadOpens : Prop := ∀ k n a p c, P.sealInPlace k n a p = some c → P.openInPlace k n a c = some p

/-- Decompression inverts compression, at every level. -/
def ZstdInverts : Prop := ∀ level b c, P.zstdEncode level b = some c → P.zstdDecode c = some b

/-- Distinct HKDF inputs give distinct keys. -/
def HkdfSeparates : Prop := ∀ s k i s' k' i', P.hkdf s k i = P.hkdf s' k' i' → s = s' ∧ k = k' ∧ i = i'

/-- BLAKE3 digests are 32 bytes. -/
def Blake3Len : Prop := ∀ b, (P.blake3 b).length = 32

end P2pnas.Core.Base
