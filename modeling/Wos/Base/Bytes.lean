import Mathlib.Data.Nat.Bitwise
import Mathlib.Data.List.Basic
import Mathlib.Tactic.Ring

/-!
# Byte buffers and little-endian words

Buffers are modelled as total functions `ℕ → UInt8`: a C array is such a function read below its
length only. The module collects what a driver does to raw memory (copying, cutting out a slice)
and the little-endian encoding of 32-bit words, with the round trips between words and bytes.

## Main definitions

* `Buf`, `Buf.copy`, `Buf.slice`, `Buf.drop`: buffers and `memcpy`;
* `Buf.word`, `Buf.ofWords`, `Buf.setWord`: a buffer seen as an array of 32-bit words;
* `ascii`: the bytes of a C string literal.
-/

namespace Wos

/-- A byte buffer. Only the bytes below the length of the C array it stands for are meaningful. -/
abbrev Buf := ℕ → UInt8

/-- The bytes of a string literal, without the terminating NUL. -/
def ascii (s : String) : List UInt8 := s.toList.map fun c => UInt8.ofNat c.toNat

/-- Byte `k` of the little-endian encoding of `v`. -/
def leByte (v k : ℕ) : UInt8 := UInt8.ofNat (v / 256 ^ k)

lemma leByte_toNat (v k : ℕ) : (leByte v k).toNat = v / 256 ^ k % 256 := by
  simp [leByte]

/-- Four little-endian bytes give back the value they encode, reduced to 32 bits. -/
lemma leByte_sum (v : ℕ) :
    (leByte v 0).toNat + 256 * (leByte v 1).toNat + 65536 * (leByte v 2).toNat
      + 16777216 * (leByte v 3).toNat = v % 4294967296 := by
  simp only [leByte_toNat]
  norm_num
  omega

namespace Buf

/-- The buffer of zeroes. -/
def zero : Buf := fun _ => 0

/-- The buffer that holds a list of bytes, followed by zeroes. -/
def ofList (l : List UInt8) : Buf := fun k => l.getD k 0

/-- The buffer that starts at byte `off` of another. -/
def drop (b : Buf) (off : ℕ) : Buf := fun k => b (off + k)

/-- `memcpy (dst + off, src, n)`. -/
def copy (dst : Buf) (off : ℕ) (src : Buf) (n : ℕ) : Buf :=
  fun k => if off ≤ k ∧ k < off + n then src (k - off) else dst k

/-- The `n` bytes that start at `off`, as a list. -/
def slice (b : Buf) (off n : ℕ) : List UInt8 := (List.range n).map fun t => b (off + t)

/-- The little-endian 32-bit word at index `i`, that is, at byte `4 * i`. -/
def word (b : Buf) (i : ℕ) : ℕ :=
  (b (4 * i)).toNat + 256 * (b (4 * i + 1)).toNat + 65536 * (b (4 * i + 2)).toNat
    + 16777216 * (b (4 * i + 3)).toNat

/-- The buffer that holds the given words, little-endian. -/
def ofWords (w : ℕ → ℕ) : Buf := fun k => leByte (w (k / 4)) (k % 4)

/-- The buffer with word `i` replaced. -/
def setWord (b : Buf) (i v : ℕ) : Buf := fun k => if k / 4 = i then leByte v (k % 4) else b k

@[simp]
lemma zero_apply (k : ℕ) : zero k = 0 := rfl

@[simp]
lemma drop_apply (b : Buf) (off k : ℕ) : b.drop off k = b (off + k) := rfl

variable {off n k i : ℕ} {b dst src a : Buf}

lemma copy_apply_of_lt (h : off ≤ k) (h' : k < off + n) :
    copy dst off src n k = src (k - off) := by
  simp [copy, h, h']

lemma copy_apply_of_not (h : ¬(off ≤ k ∧ k < off + n)) :
    copy dst off src n k = dst k := by
  simp [copy, h]

@[simp]
lemma length_slice (b : Buf) (off n : ℕ) : (b.slice off n).length = n := by
  simp [slice]

lemma slice_add (b : Buf) (off m n : ℕ) :
    b.slice off (m + n) = b.slice off m ++ b.slice (off + m) n := by
  simp [slice, List.range_add, Nat.add_assoc, Function.comp_def]

@[simp]
lemma slice_zero (b : Buf) (off : ℕ) : b.slice off 0 = [] := rfl

lemma ofList_slice (h : k < n) : ofList (b.slice off n) k = b (off + k) := by
  simp [ofList, slice, List.getD_eq_getElem?_getD, h]

lemma slice_congr {off' : ℕ} (h : ∀ t < n, a (off + t) = b (off' + t)) :
    a.slice off n = b.slice off' n := by
  apply List.map_congr_left
  intro t ht
  exact h t (List.mem_range.mp ht)

lemma word_lt (b : Buf) (i : ℕ) : b.word i < 4294967296 := by
  have h0 := (b (4 * i)).toNat_lt
  have h1 := (b (4 * i + 1)).toNat_lt
  have h2 := (b (4 * i + 2)).toNat_lt
  have h3 := (b (4 * i + 3)).toNat_lt
  unfold word
  omega

lemma word_congr (h : ∀ k, k / 4 = i → a k = b k) : a.word i = b.word i := by
  unfold word
  rw [h (4 * i) (by omega), h (4 * i + 1) (by omega), h (4 * i + 2) (by omega),
    h (4 * i + 3) (by omega)]

@[simp]
lemma word_zero (i : ℕ) : zero.word i = 0 := by
  simp [word]

/-- A word written little-endian reads back as its low 32 bits. -/
lemma word_ofWords (w : ℕ → ℕ) (i : ℕ) : (ofWords w).word i = w i % 4294967296 := by
  have h0 : (4 * i) / 4 = i := by omega
  have h1 : (4 * i + 1) / 4 = i := by omega
  have h2 : (4 * i + 2) / 4 = i := by omega
  have h3 : (4 * i + 3) / 4 = i := by omega
  have m0 : (4 * i) % 4 = 0 := by omega
  have m1 : (4 * i + 1) % 4 = 1 := by omega
  have m2 : (4 * i + 2) % 4 = 2 := by omega
  have m3 : (4 * i + 3) % 4 = 3 := by omega
  simp only [word, ofWords, h0, h1, h2, h3, m0, m1, m2, m3]
  exact leByte_sum (w i)

lemma word_setWord_self (b : Buf) (i v : ℕ) : (b.setWord i v).word i = v % 4294967296 := by
  rw [← word_ofWords (fun _ => v) i]
  apply word_congr
  intro k hk
  simp [setWord, ofWords, hk]

lemma word_setWord_of_ne (b : Buf) {j : ℕ} (v : ℕ) (h : j ≠ i) :
    (b.setWord i v).word j = b.word j := by
  apply word_congr
  intro k hk
  simp [setWord, hk, h]

end Buf

end Wos
