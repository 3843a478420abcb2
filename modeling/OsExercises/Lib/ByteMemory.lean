import Mathlib.Data.Nat.Basic
import Mathlib.Algebra.Order.Group.Nat

/-!
# Byte-addressed memory

A memory gives a byte to every address. `load m a n` reads the `n` bytes from `a` on as a
little-endian number and `store m a n v` writes the `n` low bytes of `v` there, so that a record
that lives in memory is read and written field by field and overlaps whatever else is stored in
the same bytes. The two facts everything rests on are `load_store_same` and `load_store_apart`.
-/

namespace OsExercises

/-- The contents of every byte; addresses are numbers, `0` is the null pointer. -/
abbrev Mem := Nat → UInt8

/-- The number of addresses of a 64-bit machine. -/
def addressSpace : Nat := 2 ^ 64

/-- What a successful `mmap` of `len` bytes promises about the returned address: it is not null, the
mapping lies inside the address space, and `len` is not zero (that fails with `EINVAL`). -/
structure Mapped (base len : Nat) : Prop where
  base_pos : 0 < base
  len_pos : 0 < len
  fits : base + len ≤ addressSpace

instance (base len : Nat) : Decidable (Mapped base len) :=
  decidable_of_iff (0 < base ∧ 0 < len ∧ base + len ≤ addressSpace)
    ⟨fun ⟨h1, h2, h3⟩ => ⟨h1, h2, h3⟩, fun ⟨h1, h2, h3⟩ => ⟨h1, h2, h3⟩⟩

/-- `mmap` chooses the address of a mapping, a multiple of the page size. -/
def PageAligned (base : Nat) : Prop := 4096 ∣ base

instance (base : Nat) : Decidable (PageAligned base) := inferInstanceAs (Decidable (4096 ∣ base))

namespace Mem

/-- The little-endian number in the `n` bytes from `a` on. -/
def load (m : Mem) (a : Nat) : Nat → Nat
  | 0 => 0
  | n + 1 => (m a).toNat + 256 * load m (a + 1) n

/-- Writes the `n` low bytes of `v` from `a` on. -/
def store (m : Mem) (a : Nat) (n v : Nat) : Mem := fun b =>
  if a ≤ b ∧ b < a + n then UInt8.ofNat (v / 256 ^ (b - a)) else m b

/-- Writes the single byte `x` at `a`. -/
def poke (m : Mem) (a : Nat) (x : UInt8) : Mem := fun b => if b = a then x else m b

/-- Zero bytes in `[a, a + n)`: a fresh anonymous mapping. -/
def clear (m : Mem) (a n : Nat) : Mem := fun b => if a ≤ b ∧ b < a + n then 0 else m b

/-- `m` and `m'` hold the same bytes in `[lo, hi)`. -/
def Same (m m' : Mem) (lo hi : Nat) : Prop := ∀ b, lo ≤ b → b < hi → m' b = m b

theorem load_lt (m : Mem) (a n : Nat) : load m a n < 256 ^ n := by
  induction n generalizing a with
  | zero => simp [load]
  | succ n ih =>
    have h1 := ih (a + 1)
    have h2 : (m a).toNat < 256 := UInt8.toNat_lt (m a)
    rw [load, Nat.pow_succ]
    omega

theorem load_congr {m m' : Mem} {a n : Nat} (h : Same m m' a (a + n)) : load m' a n = load m a n := by
  induction n generalizing a with
  | zero => rfl
  | succ n ih =>
    rw [load, load, h a (Nat.le_refl a) (by omega), ih fun b h1 h2 => h b (by omega) (by omega)]

theorem store_apply_of_notMem {m : Mem} {a n v b : Nat} (h : b < a ∨ a + n ≤ b) :
    store m a n v b = m b := by
  unfold store; rw [if_neg (by omega)]

theorem store_apply_of_mem {m : Mem} {a n v b : Nat} (h1 : a ≤ b) (h2 : b < a + n) :
    store m a n v b = UInt8.ofNat (v / 256 ^ (b - a)) := by
  unfold store; rw [if_pos ⟨h1, h2⟩]

theorem store_succ_same (m : Mem) (a n v : Nat) :
    Same (store m (a + 1) n (v / 256)) (store m a (n + 1) v) (a + 1) (a + 1 + n) := by
  intro b h1 h2
  rw [store_apply_of_mem (by omega) (by omega), store_apply_of_mem h1 h2, Nat.div_div_eq_div_mul]
  congr 2
  rw [← Nat.pow_succ']
  congr 1; omega

theorem load_store_same (m : Mem) (a n v : Nat) : load (store m a n v) a n = v % 256 ^ n := by
  induction n generalizing a v with
  | zero => simp [load, Nat.mod_one]
  | succ n ih =>
    have hlow : (store m a (n + 1) v a).toNat = v % 256 := by
      rw [store_apply_of_mem (Nat.le_refl a) (by omega)]
      simp
    rw [load, hlow, load_congr (store_succ_same m a n v), ih, Nat.pow_succ', Nat.mod_mul]

theorem load_store_apart {m : Mem} {a n v c k : Nat} (h : a + n ≤ c ∨ c + k ≤ a) :
    load (store m a n v) c k = load m c k :=
  load_congr fun _ h1 h2 => store_apply_of_notMem (by omega)

theorem load_div_pow (m : Mem) {a n b : Nat} (h1 : a ≤ b) (h2 : b < a + n) :
    load m a n / 256 ^ (b - a) % 256 = (m b).toNat := by
  induction n generalizing a with
  | zero => omega
  | succ n ih =>
    have hbyte : (m a).toNat < 256 := UInt8.toNat_lt (m a)
    rw [load]
    rcases Nat.eq_or_lt_of_le h1 with rfl | hlt
    · rw [Nat.sub_self, Nat.pow_zero, Nat.div_one]
      omega
    · have hsub : b - a = b - (a + 1) + 1 := by omega
      have hhigh : ((m a).toNat + 256 * load m (a + 1) n) / 256 = load m (a + 1) n := by omega
      rw [hsub, Nat.pow_succ', ← Nat.div_div_eq_div_mul, hhigh]
      exact ih hlt (by omega)

/-- Writing back what was read changes nothing. -/
theorem store_load (m : Mem) (a n : Nat) : store m a n (load m a n) = m := by
  funext b
  by_cases h : a ≤ b ∧ b < a + n
  · rw [store_apply_of_mem h.1 h.2]
    refine UInt8.toNat_inj.mp ?_
    rw [UInt8.toNat_ofNat', load_div_pow m h.1 h.2]
  · exact store_apply_of_notMem (by omega)

theorem load_poke_apart {m : Mem} {a c k : Nat} {x : UInt8} (h : a < c ∨ c + k ≤ a) :
    load (poke m a x) c k = load m c k :=
  load_congr fun b h1 h2 => if_neg (by omega)

-- Memory is only handled through the lemmas above; unfolding a load byte by byte never helps.
attribute [irreducible] load store

end Mem
end OsExercises
