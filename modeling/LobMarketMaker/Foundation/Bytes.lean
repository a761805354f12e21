import LobMarketMaker.Foundation.Int64
import Mathlib.Data.Nat.Basic
import Mathlib.Algebra.Order.Ring.Int
import Mathlib.Tactic.Ring

/-!
# Fixed-width byte records

* `leBytes`, `ofLeBytes`: little-endian unsigned integers; `toI64`, `ofI64`: the two's complement
  reading of a 64-bit word;
* `Reader`: a reader of a byte stream that may run out of bytes;
* `Decodes r l a`: `r` reads the bytes `l` as `a`, whatever follows; `Consumes r k`: a successful
  read takes exactly `k` bytes. Both compose along `>>=`;
* `readMany`: reading records until one fails; **`readMany_take`**: of a log of fixed-size records
  cut anywhere, exactly the complete records are read.
-/

set_option autoImplicit false

namespace Foundation

/-! ### Integers -/

/-- The `n` low bytes of `v`, least significant first. -/
def leBytes : ℕ → ℕ → List UInt8
  | 0, _ => []
  | n + 1, v => UInt8.ofNat v :: leBytes n (v / 256)

/-- The number that bytes spell, least significant first. -/
def ofLeBytes : List UInt8 → ℕ
  | [] => 0
  | b :: l => b.toNat + 256 * ofLeBytes l

@[simp] theorem length_leBytes (n v : ℕ) : (leBytes n v).length = n := by
  induction n generalizing v with
  | zero => rfl
  | succ n ih => rw [leBytes, List.length_cons, ih]

theorem ofLeBytes_leBytes (n v : ℕ) : ofLeBytes (leBytes n v) = v % 256 ^ n := by
  induction n generalizing v with
  | zero => rw [leBytes, ofLeBytes, pow_zero, Nat.mod_one]
  | succ n ih =>
    rw [leBytes, ofLeBytes, ih, UInt8.toNat_ofNat', pow_succ' 256 n, Nat.mod_mul]

theorem ofLeBytes_lt (l : List UInt8) : ofLeBytes l < 256 ^ l.length := by
  induction l with
  | nil => exact Nat.one_pos
  | cons b l ih =>
    have hb : b.toNat < 256 := b.toNat_lt
    rw [ofLeBytes, List.length_cons, pow_succ']
    omega

theorem leBytes_ofLeBytes (l : List UInt8) : leBytes l.length (ofLeBytes l) = l := by
  induction l with
  | nil => rfl
  | cons b l ih =>
    have hb : b.toNat < 256 := b.toNat_lt
    have hlow : UInt8.ofNat (b.toNat + 256 * ofLeBytes l) = b := by
      refine UInt8.toNat_inj.mp ?_
      rw [UInt8.toNat_ofNat', Nat.add_mul_mod_self_left, Nat.mod_eq_of_lt hb]
    have hhigh : (b.toNat + 256 * ofLeBytes l) / 256 = ofLeBytes l := by omega
    rw [List.length_cons, ofLeBytes, leBytes, hlow, hhigh, ih]

/-- `static_cast<int64_t>` of a 64-bit word. -/
def toI64 (v : ℕ) : ℤ := Int.bmod v (2 ^ 64)

/-- `static_cast<uint64_t>` of an integer. -/
def ofI64 (x : ℤ) : ℕ := (x % 2 ^ 64).toNat

theorem ofI64_lt (x : ℤ) : ofI64 x < 2 ^ 64 := by
  unfold ofI64; omega

theorem toI64_ofI64 {x : ℤ} (hx : InI64 x) : toI64 (ofI64 x) = x := by
  obtain ⟨h₁, h₂⟩ := hx
  unfold toI64 ofI64
  rw [Int.toNat_of_nonneg (Int.emod_nonneg x (by norm_num)), Int.bmod_def]
  push_cast
  split_ifs <;> omega

theorem ofI64_toI64 {v : ℕ} (hv : v < 2 ^ 64) : ofI64 (toI64 v) = v := by
  unfold toI64 ofI64
  rw [Int.bmod_def]
  push_cast
  split_ifs <;> omega

/-! ### Readers -/

/-- A reader of a byte stream. -/
abbrev Reader (α : Type) : Type := StateT (List UInt8) Option α

/-- The next `n` bytes, if the stream has them. -/
def takeBytes (n : ℕ) : Reader (List UInt8) := fun s =>
  if n ≤ s.length then some (s.take n, s.drop n) else none

section Reader

variable {α β : Type}

/-- `r` reads the bytes `l` as `a`, whatever follows. -/
def Decodes (r : Reader α) (l : List UInt8) (a : α) : Prop :=
  ∀ rest, r (l ++ rest) = some (a, rest)

/-- A successful read takes exactly `k` bytes. -/
def Consumes (r : Reader α) (k : ℕ) : Prop :=
  ∀ s a s', r s = some (a, s') → s.length = k + s'.length

theorem Decodes.pure (a : α) : Decodes (Pure.pure a : Reader α) [] a := fun _ => rfl

theorem Decodes.bind {r : Reader α} {f : α → Reader β} {l l' : List UInt8} {a : α} {b : β}
    (hr : Decodes r l a) (hf : Decodes (f a) l' b) : Decodes (r >>= f) (l ++ l') b := by
  intro rest
  show (r (l ++ l' ++ rest)).bind (fun p => f p.1 p.2) = _
  rw [List.append_assoc, hr]
  exact hf rest

theorem Decodes.map {r : Reader α} {l : List UInt8} {a : α} (hr : Decodes r l a) (f : α → β) :
    Decodes (r >>= fun x => Pure.pure (f x)) l (f a) := by
  have h := hr.bind (f := fun x => Pure.pure (f x)) (Decodes.pure (f a))
  rwa [List.append_nil] at h

theorem decodes_takeBytes {n : ℕ} {l : List UInt8} (h : l.length = n) :
    Decodes (takeBytes n) l l := by
  intro rest
  subst h
  rw [takeBytes, if_pos (by simp), List.take_left, List.drop_left]

theorem Consumes.pure (a : α) : Consumes (Pure.pure a : Reader α) 0 := by
  intro s b s' h
  cases h
  omega

theorem Consumes.bind {r : Reader α} {f : α → Reader β} {j k : ℕ} (hr : Consumes r j)
    (hf : ∀ a, Consumes (f a) k) : Consumes (r >>= f) (j + k) := by
  intro s b s' h
  change (r s).bind (fun p => f p.1 p.2) = some (b, s') at h
  obtain ⟨⟨a, t⟩, h₁, h₂⟩ := Option.bind_eq_some_iff.mp h
  have e₁ := hr s a t h₁
  have e₂ := hf a t b s' h₂
  omega

theorem Consumes.map {r : Reader α} {k : ℕ} (hr : Consumes r k) (f : α → β) :
    Consumes (r >>= fun x => Pure.pure (f x)) k :=
  hr.bind fun a => Consumes.pure (f a)

theorem consumes_takeBytes (n : ℕ) : Consumes (takeBytes n) n := by
  intro s a s' h
  unfold takeBytes at h
  split_ifs at h with hn
  cases h
  rw [List.length_drop]; omega

theorem Consumes.eq_none {r : Reader α} {k : ℕ} (h : Consumes r k) {s : List UInt8}
    (hs : s.length < k) : r s = none := by
  cases hr : r s with
  | none => rfl
  | some p =>
    have := h s p.1 p.2 hr
    omega

/-! ### Logs of records -/

/-- Reading until a read fails. -/
def readManyFuel (r : Reader α) : ℕ → List UInt8 → List α
  | 0, _ => []
  | fuel + 1, s =>
    match r s with
    | none => []
    | some (a, s') => a :: readManyFuel r fuel s'

/-- Reading until a read fails; each read takes a byte or more, so the length is fuel enough. -/
def readMany (r : Reader α) (s : List UInt8) : List α := readManyFuel r s.length s

variable {r : Reader α} {enc : α → List UInt8} {k : ℕ}

theorem readManyFuel_take (hk : 0 < k) (hr : Consumes r k) :
    ∀ (as : List α), (∀ a ∈ as, Decodes r (enc a) a ∧ (enc a).length = k) → ∀ (m fuel : ℕ),
      ((as.flatMap enc).take m).length ≤ fuel →
      readManyFuel r fuel ((as.flatMap enc).take m) = as.take (m / k) := by
  intro as
  induction as with
  | nil =>
    intro _ m fuel _
    rw [List.flatMap_nil, List.take_nil, List.take_nil]
    cases fuel with
    | zero => rfl
    | succ fuel => rw [readManyFuel, hr.eq_none (by simpa using hk)]
  | cons a as ih =>
    intro h m fuel hfuel
    obtain ⟨hdec, hlen⟩ := h a List.mem_cons_self
    rw [List.flatMap_cons] at hfuel ⊢
    by_cases hm : m < k
    · -- the cut falls into the first record
      rw [Nat.div_eq_of_lt hm, List.take_zero]
      cases fuel with
      | zero => rfl
      | succ fuel =>
        rw [readManyFuel, hr.eq_none]
        rw [List.length_take]; omega
    · have hsplit : (enc a ++ as.flatMap enc).take m = enc a ++ (as.flatMap enc).take (m - k) := by
        rw [List.take_append, hlen, List.take_of_length_le (by omega)]
      have hdiv : m / k = (m - k) / k + 1 := by
        conv_lhs => rw [show m = m - k + k by omega]
        exact Nat.add_div_right _ hk
      rw [hsplit] at hfuel ⊢
      rw [List.length_append, hlen] at hfuel
      cases fuel with
      | zero => omega
      | succ fuel =>
        rw [readManyFuel, hdec, hdiv, List.take_succ_cons]
        dsimp only
        rw [ih (fun b hb => h b (List.mem_cons_of_mem _ hb)) _ _ (by omega)]

/-- **Truncated logs.** Of a log cut to `m` bytes, exactly the complete records are read. -/
theorem readMany_take (hk : 0 < k) (hr : Consumes r k) (as : List α)
    (h : ∀ a ∈ as, Decodes r (enc a) a ∧ (enc a).length = k) (m : ℕ) :
    readMany r ((as.flatMap enc).take m) = as.take (m / k) :=
  readManyFuel_take hk hr as h m _ le_rfl

end Reader

end Foundation
