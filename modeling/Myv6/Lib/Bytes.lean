import Mathlib.Data.Nat.Notation
import Mathlib.Tactic.IntervalCases
import Myv6.Lib.Index

/-!
# Lib/Bytes — words and pages as bytes

    word   b₀ b₁ … b₇                     the least significant byte first
    page   b₀ b₁ … b₇ b₈ … b₄₀₉₅          512 words

A page is the same thing as its bytes: `pageOf` and `byteAt` are inverse to each other below the page
size.  `leNat` reads a number off a list of bytes and `leBytes` writes it.
-/

namespace Bytes

abbrev Byte := BitVec 8

/-- Byte `i` of a word. -/
def byteOf (w : BitVec 64) (i : ℕ) : Byte := w.extractLsb' (8 * i) 8

/-- The word of eight bytes. -/
def wordOf (b : ℕ → Byte) : BitVec 64 := b 7 ++ b 6 ++ b 5 ++ b 4 ++ b 3 ++ b 2 ++ b 1 ++ b 0

/-- Byte `k` of a page. -/
def byteAt (f : Fin 512 → BitVec 64) (k : ℕ) : Byte := byteOf (f (Fin.ofNat 512 (k / 8))) (k % 8)

/-- The page of its bytes. -/
def pageOf (b : ℕ → Byte) (i : Fin 512) : BitVec 64 := wordOf fun j => b (8 * i + j)

variable {w : BitVec 64} {b b' : ℕ → Byte} {f g : Fin 512 → BitVec 64} {i k n : ℕ} {bs : List Byte}

theorem byteOf_wordOf (h : i < 8) : byteOf (wordOf b) i = b i := by
  refine BitVec.eq_of_getLsbD_eq fun j hj => ?_
  interval_cases i <;>
    simp only [byteOf, wordOf, BitVec.getLsbD_extractLsb', hj, BitVec.getLsbD_append] <;>
    grind

theorem wordOf_byteOf : wordOf (byteOf w) = w := by
  refine BitVec.eq_of_getLsbD_eq fun j hj => ?_
  simp only [byteOf, wordOf, BitVec.getLsbD_extractLsb', BitVec.getLsbD_append]
  grind

/-- Eight bytes make the word. -/
theorem wordOf_congr (h : ∀ j < 8, b j = b' j) : wordOf b = wordOf b' := by
  unfold wordOf
  rw [h 7 (by decide), h 6 (by decide), h 5 (by decide), h 4 (by decide), h 3 (by decide),
    h 2 (by decide), h 1 (by decide), h 0 (by decide)]

/-- The bytes of the page of its bytes. -/
theorem byteAt_pageOf (h : k < 4096) : byteAt (pageOf b) k = b k := by
  rw [byteAt, pageOf, byteOf_wordOf (Nat.mod_lt _ (by decide)), Fin.val_ofNat]
  congr 1
  omega

/-- The page of the bytes of a page. -/
theorem pageOf_byteAt : pageOf (byteAt f) = f := by
  funext i
  have hword : ∀ j < 8, byteAt f (8 * i + j) = byteOf (f i) j := by
    intro j hj
    have hidx : Fin.ofNat 512 ((8 * i + j) / 8) = i := by
      refine Fin.ext ?_
      rw [Fin.val_ofNat]
      omega
    rw [byteAt, hidx]
    congr 1
    omega
  exact (wordOf_congr hword).trans wordOf_byteOf

/-- Only the bytes below the page size count. -/
theorem pageOf_congr (h : ∀ k < 4096, b k = b' k) : pageOf b = pageOf b' := by
  funext i
  have hi := i.isLt
  exact wordOf_congr fun j hj => h _ (by omega)

/-- **A page is its bytes.** -/
theorem page_ext (h : ∀ k < 4096, byteAt f k = byteAt g k) : f = g := by
  rw [← pageOf_byteAt (f := f), ← pageOf_byteAt (f := g)]
  exact pageOf_congr h

/-- The page after a copy of `bs` to its byte `off`. -/
def poke (f : Fin 512 → BitVec 64) (off : ℕ) (bs : List Byte) : Fin 512 → BitVec 64 :=
  pageOf fun k => if off ≤ k ∧ k < off + bs.length then bs.getD (k - off) 0 else byteAt f k

theorem byteAt_poke {off : ℕ} (h : k < 4096) : byteAt (poke f off bs) k =
    if off ≤ k ∧ k < off + bs.length then bs.getD (k - off) 0 else byteAt f k :=
  byteAt_pageOf h

/-! ## Numbers -/

def leNat : List Byte → ℕ
  | [] => 0
  | b :: bs => b.toNat + 256 * leNat bs

def leBytes : ℕ → ℕ → List Byte
  | 0, _ => []
  | n + 1, k => BitVec.ofNat 8 k :: leBytes n (k / 256)

@[simp] theorem leBytes_length : ∀ {n k : ℕ}, (leBytes n k).length = n
  | 0, _ => rfl
  | n + 1, k => by rw [leBytes, List.length_cons, leBytes_length]

/-- **Writing and reading a number.** -/
theorem leNat_leBytes : ∀ {n k : ℕ}, k < 256 ^ n → leNat (leBytes n k) = k
  | 0, k, h => by
    rw [leBytes, leNat]
    omega
  | n + 1, k, h => by
    have hdiv : k / 256 < 256 ^ n := by
      rw [Nat.pow_succ] at h
      omega
    rw [leBytes, leNat, leNat_leBytes hdiv, BitVec.toNat_ofNat]
    omega

end Bytes
