import Mathlib.Data.List.Pairwise
import Wos.Base.Bytes

/-!
# The Wayland wire format: unpacking a message

`wl_connection_unpack` walks a message's signature with a cursor into the body. Cursor and lengths
are `uint32_t`, so the sums it compares with the length of the body are taken modulo `2^32` here.
The model keeps, beside the arguments, the offsets of every byte of the body that was read.

## Main definitions

* `Arg`, `Cursor`: one argument, and the state of the loop;
* `unpackArg`, `wlConnectionUnpack`: one turn of the loop, and the whole function;
* `Safe`: what a caller relies on;
* `EndsAtWrap`, `LengthsFit`, `lastLength`: what it takes of the lengths in the body.

## Main results

* `Accepts.sound_iff`, `shared_iff`: which accepted messages are sound, and which share no bytes;
* `unpackLoop_reads_iff`: only the body is read iff no string's length wraps to its very end;
* `wlConnectionUnpack_safe_iff`: all together for the whole function.
-/

namespace Wos.Wayland

open List

/-- Arithmetic of `uint32_t`. -/
def wrap32 (n : ℕ) : ℕ := n % 4294967296

/-- The word at byte `pos` of the body. -/
def get32 (b : Buf) (pos : ℕ) : ℕ := (b.drop pos).word 0

/-- `(len + 3) & ~3u`. -/
def roundUp4 (len : ℕ) : ℕ := wrap32 (len + 3) / 4 * 4

/-- `WL_BUFFER_SIZE`, the largest message. -/
def wlBufferSize : ℕ := 4096

/-- `WL_MAX_ARGS`, which every caller passes as `max`. -/
def wlMaxArgs : ℕ := 12

/-- What one letter of a signature asks for. The five plain words are stored alike: they are members
of one union. -/
inductive Kind
  | word | string | array | fd
  deriving DecidableEq, Repr

/-- The `switch` of the unpacker; `none` is its `default`. -/
def kind (letter : Char) : Option Kind :=
  if letter = 'i' ∨ letter = 'u' ∨ letter = 'f' ∨ letter = 'n' ∨ letter = 'o' then some .word
  else if letter = 's' then some .string
  else if letter = 'a' then some .array
  else if letter = 'h' then some .fd
  else none

/-- A string, an array and a descriptor have one letter each. -/
lemma kind_iff (l : Char) : (kind l = some .string ↔ l = 's') ∧ (kind l = some .array ↔ l = 'a') ∧
    (kind l = some .fd ↔ l = 'h') := by
  unfold kind
  split_ifs with hword hs ha hh
  · rcases hword with rfl | rfl | rfl | rfl | rfl <;> decide
  all_goals simp_all

/-- One unpacked argument, with the place of its word. A string or an array carries the length it was
sent with. A string points behind its length, an array to the unpacker's one `scratch`. -/
inductive Arg
  | word (pos value : ℕ)
  | null (pos : ℕ)
  | str (pos len : ℕ)
  | array (pos len : ℕ)
  | fd (h : ℕ)
  deriving DecidableEq, Repr

/-- The state of the loop: `at`, the waiting descriptors, the static `scratch` (`data`, `size`), the
arguments so far and the bytes of the body that were read. -/
structure Cursor where
  pos : ℕ
  fds : List ℕ
  scratch : ℕ × ℕ
  args : List Arg
  reads : List ℕ
  deriving DecidableEq, Repr

namespace Cursor

/-- The next argument, and the cursor behind it. -/
def put (c : Cursor) (a : Arg) (pos : ℕ) : Cursor := { c with args := c.args ++ [a], pos := pos }

/-- Reading a word. -/
def readWord (c : Cursor) : Cursor :=
  { c with reads := c.reads ++ [c.pos, c.pos + 1, c.pos + 2, c.pos + 3] }

/-- Reading one byte. -/
def readByte (c : Cursor) (k : ℕ) : Cursor := { c with reads := c.reads ++ [k] }

end Cursor

/-- A string argument, after its length word was seen to be there. -/
def unpackString (b : Buf) (bodyLen : ℕ) (c : Cursor) : Cursor × Bool :=
  let len := get32 b c.pos
  let start := wrap32 (c.pos + 4)
  let pos := c.pos
  let c := c.readWord
  if len = 0 then (c.put (.null pos) start, true)
  else if bodyLen < wrap32 (start + len) then ({ c with pos := start }, false)
  else
    -- `at + len - 1` is a `uint32_t` too
    let last := wrap32 (wrap32 (start + len) + 4294967295)
    let c := c.readByte last
    if b last ≠ 0 then ({ c with pos := start }, false)
    else (c.put (.str pos len) (wrap32 (start + roundUp4 len)), true)

/-- An array argument. `scratch` is static: a second array overwrites what the first points to. -/
def unpackArray (b : Buf) (bodyLen : ℕ) (c : Cursor) : Cursor × Bool :=
  let len := get32 b c.pos
  let start := wrap32 (c.pos + 4)
  let pos := c.pos
  let c := c.readWord
  if bodyLen < wrap32 (start + len) then ({ c with pos := start }, false)
  else
    ({ c with scratch := (start, len) }.put (.array pos len) (wrap32 (start + roundUp4 len)), true)

/-- One turn of the loop for a letter that is not `?`; `false` is the `return -1`. -/
def unpackArg (b : Buf) (bodyLen : ℕ) (letter : Char) (c : Cursor) : Cursor × Bool :=
  if letter ≠ 'h' ∧ bodyLen < wrap32 (c.pos + 4) then (c, false)
  else match kind letter with
    | some .word => (c.readWord.put (.word c.pos (get32 b c.pos)) (wrap32 (c.pos + 4)), true)
    | some .string => unpackString b bodyLen c
    | some .array => unpackArray b bodyLen c
    | some .fd =>
      match c.fds with
      | [] => (c, false)
      | h :: rest => ({ c with fds := rest }.put (.fd h) c.pos, true)
    | none => (c, false)

/-- The loop over the letters, with the number of arguments so far. -/
def unpackLoop (b : Buf) (bodyLen max : ℕ) : List Char → ℕ → Cursor → Cursor × Bool
  | [], _, c => (c, true)
  | l :: ls, n, c =>
    if l = '?' then unpackLoop b bodyLen max ls n c
    else if max ≤ n then (c, false)
    else match unpackArg b bodyLen l c with
      | (c, true) => unpackLoop b bodyLen max ls (n + 1) c
      | (c, false) => (c, false)

/-- `signature_start`: past the version the message appeared in. -/
def signatureStart (signature : List Char) : List Char :=
  signature.dropWhile fun l => decide ('0' ≤ l ∧ l ≤ '9')

/-- `wl_connection_unpack`. -/
def wlConnectionUnpack (signature : List Char) (b : Buf) (bodyLen max : ℕ) (fds : List ℕ)
    (scratch : ℕ × ℕ) : Cursor × Bool :=
  unpackLoop b bodyLen max (signatureStart signature) 0 ⟨0, fds, scratch, [], []⟩

/-! ## What a caller relies on -/

namespace Arg

/-- The bytes of the body an argument is encoded in, offset and length: its word and what its length
announces, filled up to a word. -/
def extent : Arg → Option (ℕ × ℕ)
  | .word pos _ | .null pos => some (pos, 4)
  | .str pos len | .array pos len => some (pos, 4 + (len + 3) / 4 * 4)
  | .fd _ => none

/-- The bytes of the body that a handler is given. -/
def data (scratch : ℕ × ℕ) : Arg → Option (ℕ × ℕ)
  | .word pos _ => some (pos, 4)
  | .str pos len => some (pos + 4, len)
  | .array _ _ => some scratch
  | .null _ | .fd _ => none

end Arg

/-- Two stretches of bytes that share none. -/
def Apart (r s : ℕ × ℕ) : Prop := r.1 + r.2 ≤ s.1 ∨ s.1 + s.2 ≤ r.1

/-- Only the body was read and, when the message was accepted, its strings end in the body, its
arrays lie in the body and no two of its arguments overlap. -/
structure Safe (b : Buf) (bodyLen : ℕ) (r : Cursor × Bool) : Prop where
  /-- Every byte that was read is in the body. -/
  reads : ∀ k ∈ r.1.reads, k < bodyLen
  /-- There is a NUL between the start of a string and the end of the body. -/
  strings : r.2 = true → ∀ p n, .str p n ∈ r.1.args → ∃ k, p + 4 ≤ k ∧ k < bodyLen ∧ b k = 0
  /-- What arrays point to is in the body. -/
  arrays : r.2 = true → ∀ p n, .array p n ∈ r.1.args → r.1.scratch.1 + r.1.scratch.2 ≤ bodyLen
  /-- Arguments are not encoded in the same bytes. -/
  apart : r.2 = true → (r.1.args.filterMap Arg.extent).Pairwise Apart
  /-- Handlers are not given the same bytes for two arguments. -/
  shared : r.2 = true → (r.1.args.filterMap (Arg.data r.1.scratch)).Pairwise Apart

/-- When the strings and arrays of an accepted message lie in its body, in terms of the length words
at the places of the arguments as unbounded numbers: no length runs past `2^32` when it is added to
its place, but for a string that is the last argument, descriptors apart, and has a NUL between its
start and the end of the body. -/
def LengthsFit (b : Buf) (bodyLen : ℕ) : List Char → ℕ → Prop
  | [], _ => True
  | l :: ls, pos =>
    match kind l with
    | some .word => LengthsFit b bodyLen ls (pos + 4)
    | some .string =>
      if pos + 4 + get32 b pos < 4294967296 then
        LengthsFit b bodyLen ls (pos + 4 + (get32 b pos + 3) / 4 * 4)
      else (∀ l ∈ ls, l = 'h' ∨ l = '?') ∧ ∃ k, pos + 4 ≤ k ∧ k < bodyLen ∧ b k = 0
    | some .array => pos + 4 + get32 b pos < 4294967296 ∧
        LengthsFit b bodyLen ls (pos + 4 + (get32 b pos + 3) / 4 * 4)
    | some .fd | none => LengthsFit b bodyLen ls pos

/-- The length of the last array of such a message, or `last` if it has none. -/
def lastLength (b : Buf) : List Char → ℕ → ℕ → ℕ
  | [], _, last => last
  | l :: ls, pos, last =>
    match kind l with
    | some .word => lastLength b ls (pos + 4) last
    | some .string => lastLength b ls (pos + 4 + (get32 b pos + 3) / 4 * 4) last
    | some .array => lastLength b ls (pos + 4 + (get32 b pos + 3) / 4 * 4) (get32 b pos)
    | some .fd | none => lastLength b ls pos last

/-- A string whose length takes the sum with its place to exactly `2^32` is among the arguments the
loop comes to. -/
def EndsAtWrap (b : Buf) (bodyLen max : ℕ) : List Char → ℕ → Cursor → Prop
  | [], _, _ => False
  | l :: ls, n, c =>
    if l = '?' then EndsAtWrap b bodyLen max ls n c
    else if max ≤ n then False
    else (l = 's' ∧ c.pos + 4 ≤ bodyLen ∧ c.pos + 4 + get32 b c.pos = 4294967296) ∨
      ((unpackArg b bodyLen l c).2 = true ∧
        EndsAtWrap b bodyLen max ls (n + 1) (unpackArg b bodyLen l c).1)

/-! ## Accepted messages -/

section Fit

variable {b : Buf} {bodyLen max : ℕ} {c c' : Cursor} {l : Char} {p n pos : ℕ}

lemma wrap32_of_lt (h : n < 4294967296) : wrap32 n = n := Nat.mod_eq_of_lt h

lemma wrap32_four (h : pos ≤ bodyLen + 3) (hL : bodyLen ≤ wlBufferSize) :
    wrap32 (pos + 4) = pos + 4 := by
  apply wrap32_of_lt
  simp only [wlBufferSize] at hL
  omega

/-- The argument an accepted letter puts behind the others, and the cursor and `scratch` then. -/
inductive Puts (b : Buf) (bodyLen : ℕ) (l : Char) (c c' : Cursor) : Arg → Prop
  | fd {h rest} (hkind : l = 'h') (hfds : c.fds = h :: rest) (hpos : c'.pos = c.pos)
    (hscratch : c'.scratch = c.scratch) : Puts b bodyLen l c c' (.fd h)
  | word (hkind : kind l = some .word) (hin : c.pos + 4 ≤ bodyLen) (hpos : c'.pos = c.pos + 4)
    (hscratch : c'.scratch = c.scratch) : Puts b bodyLen l c c' (.word c.pos (get32 b c.pos))
  | null (hkind : kind l = some .string) (hin : c.pos + 4 ≤ bodyLen) (hlen : get32 b c.pos = 0)
    (hpos : c'.pos = c.pos + 4) (hscratch : c'.scratch = c.scratch) :
    Puts b bodyLen l c c' (.null c.pos)
  | str (hkind : kind l = some .string) (hin : c.pos + 4 ≤ bodyLen) (hlen : get32 b c.pos ≠ 0)
    (hfits : wrap32 (c.pos + 4 + get32 b c.pos) ≤ bodyLen)
    (hnul : b (wrap32 (wrap32 (c.pos + 4 + get32 b c.pos) + 4294967295)) = 0)
    (hpos : c'.pos = wrap32 (c.pos + 4 + roundUp4 (get32 b c.pos)))
    (hscratch : c'.scratch = c.scratch) : Puts b bodyLen l c c' (.str c.pos (get32 b c.pos))
  | array (hkind : kind l = some .array) (hin : c.pos + 4 ≤ bodyLen)
    (hfits : wrap32 (c.pos + 4 + get32 b c.pos) ≤ bodyLen)
    (hpos : c'.pos = wrap32 (c.pos + 4 + roundUp4 (get32 b c.pos)))
    (hscratch : c'.scratch = (c.pos + 4, get32 b c.pos)) :
    Puts b bodyLen l c c' (.array c.pos (get32 b c.pos))

/-- One argument, with what it read and where it ended. -/
lemma unpackArg_puts (hL : bodyLen ≤ wlBufferSize) (hpos : c.pos ≤ bodyLen + 3)
    (h : unpackArg b bodyLen l c = (c', true)) :
    ∃ a, Puts b bodyLen l c c' a ∧ c'.args = c.args ++ [a] := by
  rw [unpackArg, wrap32_four hpos hL] at h
  split_ifs at h with hshort
  · cases h
  split at h
  · rename_i hkind
    obtain ⟨rfl, -⟩ := Prod.mk.inj h
    have hl : l ≠ 'h' := by
      rintro rfl
      cases hkind
    exact ⟨_, .word hkind (by by_contra; exact hshort ⟨hl, by omega⟩) rfl rfl, rfl⟩
  · rename_i hkind
    obtain rfl := (kind_iff l).1.mp hkind
    have hin : c.pos + 4 ≤ bodyLen := by
      by_contra
      exact hshort ⟨by decide, by omega⟩
    simp only [unpackString, wrap32_four hpos hL] at h
    split_ifs at h with hzero hlong hnul
    · obtain ⟨rfl, -⟩ := Prod.mk.inj h
      exact ⟨_, .null hkind hin hzero rfl rfl, rfl⟩
    · cases h
    · cases h
    · obtain ⟨rfl, -⟩ := Prod.mk.inj h
      exact ⟨_, .str hkind hin hzero (by omega) (by simpa using hnul) rfl rfl, rfl⟩
  · rename_i hkind
    obtain rfl := (kind_iff l).2.1.mp hkind
    have hin : c.pos + 4 ≤ bodyLen := by
      by_contra
      exact hshort ⟨by decide, by omega⟩
    simp only [unpackArray, wrap32_four hpos hL] at h
    split_ifs at h with hlong
    · cases h
    obtain ⟨rfl, -⟩ := Prod.mk.inj h
    exact ⟨_, .array hkind hin (by omega) rfl rfl, rfl⟩
  · rename_i hkind
    split at h
    · cases h
    · rename_i fd rest hfds
      obtain ⟨rfl, -⟩ := Prod.mk.inj h
      exact ⟨_, .fd ((kind_iff l).2.2.mp hkind) hfds rfl rfl, rfl⟩
  · cases h

/-- The loop of an accepted message. -/
inductive Accepts (b : Buf) (bodyLen : ℕ) : List Char → Cursor → Cursor → Prop
  | nil (c : Cursor) : Accepts b bodyLen [] c c
  | skip {ls c d} (hrest : Accepts b bodyLen ls c d) : Accepts b bodyLen ('?' :: ls) c d
  | step {l ls c c' d} (hl : l ≠ '?') (harg : unpackArg b bodyLen l c = (c', true))
    (hrest : Accepts b bodyLen ls c' d) : Accepts b bodyLen (l :: ls) c d

/-- A message that is accepted was read argument by argument. -/
lemma accepts_unpackLoop {ls : List Char} (h : (unpackLoop b bodyLen max ls n c).2 = true) :
    Accepts b bodyLen ls c (unpackLoop b bodyLen max ls n c).1 := by
  induction ls generalizing n c with
  | nil => exact .nil c
  | cons l ls ih =>
    rw [unpackLoop] at h ⊢
    by_cases hq : l = '?'
    · subst hq
      exact .skip (ih h)
    rw [if_neg hq] at h ⊢
    by_cases hmax : max ≤ n
    · rw [if_pos hmax] at h
      cases h
    rw [if_neg hmax] at h ⊢
    cases hstep : unpackArg b bodyLen l c with
    | mk c' ok =>
      rw [hstep] at h
      cases ok with
      | false => cases h
      | true => exact .step hq hstep (ih h)

/-- A byte belongs to an argument. -/
def Cursor.Covers (c : Cursor) (k : ℕ) : Prop :=
  ∃ e ∈ c.args.filterMap Arg.extent, e.1 ≤ k ∧ k < e.1 + e.2

/-- What holds of the arguments so far as long as no length has wrapped around. -/
structure Tidy (b : Buf) (bodyLen : ℕ) (c : Cursor) : Prop where
  /-- The cursor stays near the body. -/
  pos : c.pos ≤ bodyLen + 3
  /-- Strings end in the body. -/
  strings : ∀ p n, .str p n ∈ c.args → ∃ k, p + 4 ≤ k ∧ k < bodyLen ∧ b k = 0
  /-- Arrays lie in the body. -/
  arrays : ∀ p n, .array p n ∈ c.args → p + 4 + n ≤ bodyLen
  /-- `scratch` is one of the arrays, if there is one. -/
  scratch : ∀ p n, .array p n ∈ c.args → ∃ q m, .array q m ∈ c.args ∧ c.scratch = (q + 4, m)
  /-- The arguments are in front of the cursor. -/
  below : ∀ e ∈ c.args.filterMap Arg.extent, e.1 + e.2 ≤ c.pos
  /-- They leave no byte out. -/
  cover : ∀ k < c.pos, c.Covers k
  /-- They do not overlap. -/
  apart : (c.args.filterMap Arg.extent).Pairwise Apart

/-- What `Safe` asks of an accepted message, but for the sharing of `scratch`. -/
structure Sound (b : Buf) (bodyLen : ℕ) (c : Cursor) : Prop where
  /-- Every string ends inside the body. -/
  strings : ∀ p n, .str p n ∈ c.args → ∃ k, p + 4 ≤ k ∧ k < bodyLen ∧ b k = 0
  /-- The array in `scratch` lies inside the body. -/
  arrays : ∀ p n, .array p n ∈ c.args → c.scratch.1 + c.scratch.2 ≤ bodyLen
  /-- No two arguments overlap. -/
  apart : (c.args.filterMap Arg.extent).Pairwise Apart

lemma Tidy.sound (h : Tidy b bodyLen c) : Sound b bodyLen c where
  strings := h.strings
  arrays p n hmem := by
    obtain ⟨q, m, hmem, heq⟩ := h.scratch p n hmem
    rw [heq]
    exact h.arrays q m hmem
  apart := h.apart

/-- An argument that starts at the cursor and ends where the cursor goes. -/
lemma Tidy.put {a : Arg} {m : ℕ} (h : Tidy b bodyLen c) (hargs : c'.args = c.args ++ [a])
    (hext : a.extent = some (c.pos, m)) (hpos : c'.pos = c.pos + m) (hle : c.pos + m ≤ bodyLen + 3)
    (hs : ∀ p n, a = .str p n → ∃ k, p + 4 ≤ k ∧ k < bodyLen ∧ b k = 0)
    (ha : ∀ p n, a = .array p n → p + 4 + n ≤ bodyLen ∧ c'.scratch = (p + 4, n))
    (hscratch : (∀ p n, a ≠ .array p n) → c'.scratch = c.scratch) : Tidy b bodyLen c' := by
  have hextents : c'.args.filterMap Arg.extent = c.args.filterMap Arg.extent ++ [(c.pos, m)] := by
    simp [hargs, hext]
  have hmem {x : Arg} : x ∈ c'.args ↔ x ∈ c.args ∨ x = a := by simp [hargs]
  refine ⟨by omega, ?_, ?_, ?_, ?_, ?_, ?_⟩
  · intro p n hx
    exact (hmem.mp hx).elim (h.strings p n) fun heq => hs p n heq.symm
  · intro p n hx
    exact (hmem.mp hx).elim (h.arrays p n) fun heq => (ha p n heq.symm).1
  · intro p n hx
    by_cases hnew : ∃ q m, a = .array q m
    · obtain ⟨q, m, rfl⟩ := hnew
      exact ⟨q, m, hmem.mpr (.inr rfl), (ha q m rfl).2⟩
    · push Not at hnew
      rw [hscratch hnew]
      obtain ⟨q, m, hold, heq⟩ := h.scratch p n ((hmem.mp hx).resolve_right fun heq => hnew p n heq.symm)
      exact ⟨q, m, hmem.mpr (.inl hold), heq⟩
  · rw [hextents, hpos]
    refine forall_mem_append.mpr ⟨fun e he => (h.below e he).trans (by omega), ?_⟩
    simp
  · intro k hk
    rw [Cursor.Covers, hextents]
    by_cases hold : k < c.pos
    · obtain ⟨e, he, hin⟩ := h.cover k hold
      exact ⟨e, mem_append_left _ he, hin⟩
    · exact ⟨(c.pos, m), by simp, by dsimp only; omega, by dsimp only; omega⟩
  · rw [hextents, pairwise_append]
    refine ⟨h.apart, pairwise_singleton _ _, fun e he s hs => .inl ?_⟩
    rw [mem_singleton.mp hs]
    exact h.below e he

/-- A descriptor takes no bytes. -/
lemma Tidy.putFd {fd : ℕ} (h : Tidy b bodyLen c) (hargs : c'.args = c.args ++ [.fd fd])
    (hpos : c'.pos = c.pos) (hscratch : c'.scratch = c.scratch) : Tidy b bodyLen c' := by
  have hextents : c'.args.filterMap Arg.extent = c.args.filterMap Arg.extent := by
    simp [hargs, Arg.extent]
  have hstr {p n : ℕ} : .str p n ∈ c'.args ↔ .str p n ∈ c.args := by simp [hargs]
  have harr {p n : ℕ} : .array p n ∈ c'.args ↔ .array p n ∈ c.args := by simp [hargs]
  refine ⟨hpos ▸ h.pos, fun p n hx => h.strings p n (hstr.mp hx),
    fun p n hx => h.arrays p n (harr.mp hx), ?_, ?_, ?_, ?_⟩
  · intro p n hx
    obtain ⟨q, m, hold, heq⟩ := h.scratch p n (harr.mp hx)
    exact ⟨q, m, harr.mpr hold, hscratch.trans heq⟩
  · rw [hextents, hpos]
    exact h.below
  · rw [hpos]
    simp only [Cursor.Covers, hextents]
    exact h.cover
  · rw [hextents]
    exact h.apart

/-! Behind a length that has wrapped around every byte belongs to an argument. -/

section Wrapped

variable {ls : List Char} {d : Cursor}

lemma unpackArg_pos (hL : bodyLen ≤ wlBufferSize) {a : Arg} (hpos : c.pos ≤ bodyLen + 3)
    (h : Puts b bodyLen l c c' a) : c'.pos ≤ bodyLen + 3 := by
  have hlen : get32 b c.pos < 4294967296 := Buf.word_lt _ 0
  simp only [wlBufferSize] at hL
  cases h with
  | fd _ _ hp => omega
  | word _ hin hp => omega
  | null _ hin _ hp => omega
  | str _ hin _ hfits _ hp =>
    simp only [roundUp4, wrap32] at hfits hp
    omega
  | array _ hin hfits hp =>
    simp only [roundUp4, wrap32] at hfits hp
    omega

/-- Arguments are only added. -/
lemma Accepts.args_prefix (hL : bodyLen ≤ wlBufferSize) (h : Accepts b bodyLen ls c d)
    (hpos : c.pos ≤ bodyLen + 3) : c.args <+: d.args := by
  induction h with
  | nil => exact prefix_rfl
  | skip _ ih => exact ih hpos
  | step _ harg _ ih =>
    obtain ⟨a, hputs, hargs⟩ := unpackArg_puts hL hpos harg
    exact (prefix_append _ [a]).trans (hargs ▸ ih (unpackArg_pos hL hpos hputs))

/-- Then an argument with bytes of its own overlaps another one. -/
lemma Accepts.only_fds (hL : bodyLen ≤ wlBufferSize) (h : Accepts b bodyLen ls c d)
    (hpos : c.pos ≤ bodyLen + 3) (hcover : ∀ k < bodyLen, c.Covers k)
    (hapart : (d.args.filterMap Arg.extent).Pairwise Apart) : ∀ l ∈ ls, l = 'h' ∨ l = '?' := by
  induction h with
  | nil => simp
  | skip _ ih => exact forall_mem_cons.mpr ⟨.inr rfl, ih hpos hcover hapart⟩
  | @step l ls c c' d _ harg hrest ih =>
    obtain ⟨a, hputs, hargs⟩ := unpackArg_puts hL hpos harg
    have hpos' := unpackArg_pos hL hpos hputs
    cases hext : a.extent with
    | none =>
      have hl : l = 'h' := by
        cases hputs <;> first | assumption | cases hext
      refine forall_mem_cons.mpr ⟨.inl hl, ih hpos' (fun k hk => ?_) hapart⟩
      obtain ⟨e, he, hin⟩ := hcover k hk
      exact ⟨e, by rw [hargs, filterMap_append]; exact mem_append_left _ he, hin⟩
    | some x =>
      obtain ⟨hx, hsize, hin⟩ : x.1 = c.pos ∧ 4 ≤ x.2 ∧ c.pos + 4 ≤ bodyLen := by
        cases hputs <;> cases hext <;> exact ⟨rfl, by simp, by assumption⟩
      obtain ⟨e, he, hle, hlt⟩ := hcover c.pos (by omega)
      have hboth := (Accepts.args_prefix hL hrest hpos').filterMap Arg.extent
      rw [hargs, filterMap_append] at hboth
      have hsub := hapart.sublist hboth.sublist
      have hover := (pairwise_append.mp hsub).2.2 e he x (by simp [hext])
      rw [Apart] at hover
      omega

lemma Accepts.of_fds (hL : bodyLen ≤ wlBufferSize) (h : Accepts b bodyLen ls c d)
    (hpos : c.pos ≤ bodyLen + 3) (hfds : ∀ l ∈ ls, l = 'h' ∨ l = '?') :
    d.scratch = c.scratch ∧ ∃ hs : List ℕ, d.args = c.args ++ hs.map .fd := by
  induction h with
  | nil => exact ⟨rfl, [], by simp⟩
  | skip _ ih => exact ih hpos (forall_mem_cons.mp hfds).2
  | @step l ls c c' d hl harg _ ih =>
    obtain ⟨hl', hrest⟩ := forall_mem_cons.mp hfds
    obtain rfl := hl'.resolve_right hl
    obtain ⟨a, hputs, hargs⟩ := unpackArg_puts hL hpos harg
    obtain ⟨hscratch, hs, hargs'⟩ := ih (unpackArg_pos hL hpos hputs) hrest
    cases hputs with
    | @fd fd _ _ _ _ hsame => exact ⟨hscratch.trans hsame, fd :: hs, by simp [hargs', hargs]⟩
    | word hkind | null hkind | str hkind | array hkind => cases hkind

lemma lastLength_of_fds (hfds : ∀ l ∈ ls, l = 'h' ∨ l = '?') (last : ℕ) :
    lastLength b ls pos last = last := by
  induction ls with
  | nil => rfl
  | cons l ls ih =>
    obtain ⟨hl, hrest⟩ := forall_mem_cons.mp hfds
    obtain rfl | rfl := hl <;> exact ih hrest

/-- A length that wraps takes its argument past all bytes of the body. -/
lemma Tidy.covers_of_wraps {a : Arg} (hL : bodyLen ≤ wlBufferSize) (h : Tidy b bodyLen c)
    (hargs : c'.args = c.args ++ [a])
    (hext : a.extent = some (c.pos, 4 + (get32 b c.pos + 3) / 4 * 4))
    (hwraps : 4294967296 ≤ c.pos + 4 + get32 b c.pos) : ∀ k < bodyLen, c'.Covers k := by
  intro k hk
  simp only [wlBufferSize] at hL
  rw [Cursor.Covers, hargs, filterMap_append]
  by_cases hold : k < c.pos
  · obtain ⟨e, he, hin⟩ := h.cover k hold
    exact ⟨e, mem_append_left _ he, hin⟩
  · refine ⟨(c.pos, 4 + (get32 b c.pos + 3) / 4 * 4), mem_append_right _ (by simp [hext]), ?_, ?_⟩
    · dsimp only
      omega
    · dsimp only
      omega

end Wrapped

/-- The place behind an argument that lies in the body. -/
lemma wrap32_roundUp4 (hL : bodyLen ≤ wlBufferSize) (h : pos + 4 + n ≤ bodyLen) :
    wrap32 (pos + 4 + roundUp4 n) = pos + (4 + (n + 3) / 4 * 4) := by
  simp only [wlBufferSize] at hL
  simp only [roundUp4, wrap32]
  omega

/-- Behind a string that ends in the body there are only descriptors. -/
lemma Accepts.sound_of_fds (hL : bodyLen ≤ wlBufferSize) (h : Accepts b bodyLen ls c' d)
    (ht : Tidy b bodyLen c) (hpos : c'.pos ≤ bodyLen + 3)
    (hargs : c'.args = c.args ++ [.str c.pos n]) (hscratch : c'.scratch = c.scratch)
    (hfds : ∀ l ∈ ls, l = 'h' ∨ l = '?') (hk : ∃ k, c.pos + 4 ≤ k ∧ k < bodyLen ∧ b k = 0) :
    Sound b bodyLen d := by
  obtain ⟨hsame, hs, hargs'⟩ := h.of_fds hL hpos hfds
  refine ⟨fun p m hmem => ?_, fun p m hmem => ?_, ?_⟩
  · have hmem : .str p m ∈ c.args ∨ p = c.pos ∧ m = n := by
      simpa [hargs', hargs] using hmem
    obtain hold | ⟨rfl, rfl⟩ := hmem
    · exact ht.strings p m hold
    · exact hk
  · rw [hsame, hscratch]
    exact ht.sound.arrays p m (by simpa [hargs', hargs] using hmem)
  · have hnone : (hs.map Arg.fd).filterMap Arg.extent = [] := by
      simp [filterMap_map, Function.comp_def, Arg.extent]
    rw [hargs', hargs, filterMap_append, filterMap_append, hnone, append_nil, pairwise_append]
    refine ⟨ht.apart, by simp [Arg.extent], fun e he s hs => .inl ?_⟩
    obtain rfl : s = (c.pos, 4 + (n + 3) / 4 * 4) := by simpa [Arg.extent] using hs
    exact ht.below e he

/-- An accepted message with arguments `c` so far is sound exactly if the lengths fit that are still
to come. -/
lemma Accepts.sound_iff {ls : List Char} {d : Cursor} (hL : bodyLen ≤ wlBufferSize)
    (h : Accepts b bodyLen ls c d) (ht : Tidy b bodyLen c) :
    (Sound b bodyLen d ↔ LengthsFit b bodyLen ls c.pos) ∧
      (LengthsFit b bodyLen ls c.pos → d.scratch.2 = lastLength b ls c.pos c.scratch.2) := by
  induction h with
  | nil => exact ⟨iff_of_true ht.sound trivial, fun _ => rfl⟩
  | skip _ ih => exact ih ht
  | @step l ls c c' d hl harg hrest ih =>
    obtain ⟨a, hputs, hargs⟩ := unpackArg_puts hL ht.pos harg
    have hpos' := unpackArg_pos hL ht.pos hputs
    have hlen : get32 b c.pos < 4294967296 := Buf.word_lt _ 0
    cases hputs with
    | fd hkind _ hpos hscratch =>
      subst hkind
      have ht' := ht.putFd hargs hpos hscratch
      rw [← hpos, ← hscratch]
      exact ih ht'
    | word hkind hin hpos hscratch =>
      have ht' : Tidy b bodyLen c' :=
        ht.put hargs rfl hpos (by omega) (by simp) (by simp) fun _ => hscratch
      simp only [LengthsFit, lastLength, hkind]
      rw [← hpos, ← hscratch]
      exact ih ht'
    | null hkind hin hzero hpos hscratch =>
      have ht' : Tidy b bodyLen c' :=
        ht.put hargs rfl hpos (by omega) (by simp) (by simp) fun _ => hscratch
      have hfit : c.pos + 4 + 0 < 4294967296 := by
        simp only [wlBufferSize] at hL
        omega
      simp only [LengthsFit, lastLength, hkind, hzero, if_pos hfit]
      rw [← hscratch]
      simpa [← hpos] using ih ht'
    | str hkind hin hne hfits hnul hpos hscratch =>
      simp only [LengthsFit, lastLength, hkind]
      by_cases hfit : c.pos + 4 + get32 b c.pos < 4294967296
      · rw [wrap32_of_lt hfit] at hfits hnul
        rw [wrap32_roundUp4 hL hfits] at hpos
        have ht' : Tidy b bodyLen c' := by
          refine ht.put hargs rfl hpos (by omega) ?_ (by simp) fun _ => hscratch
          rintro p n ⟨⟩
          refine ⟨c.pos + 4 + get32 b c.pos - 1, by omega, by omega, ?_⟩
          convert hnul using 2
          simp only [wrap32]
          omega
        rw [if_pos hfit, ← hscratch, Nat.add_assoc, ← hpos]
        exact ih ht'
      · have hcover := ht.covers_of_wraps hL hargs rfl (by omega)
        rw [if_neg hfit]
        refine ⟨⟨fun hs => ⟨hrest.only_fds hL hpos' hcover hs.apart, ?_⟩, ?_⟩, ?_⟩
        · have hmem := (hrest.args_prefix hL hpos').subset (hargs ▸ mem_append_right _ mem_cons_self)
          exact hs.strings _ _ hmem
        · rintro ⟨hfds, hk⟩
          exact hrest.sound_of_fds hL ht hpos' hargs hscratch hfds hk
        · rintro ⟨hfds, -⟩
          rw [lastLength_of_fds hfds, (hrest.of_fds hL hpos' hfds).1, hscratch]
    | array hkind hin hfits hpos hscratch =>
      simp only [LengthsFit, lastLength, hkind]
      by_cases hfit : c.pos + 4 + get32 b c.pos < 4294967296
      · rw [wrap32_of_lt hfit] at hfits
        rw [wrap32_roundUp4 hL hfits] at hpos
        have ht' : Tidy b bodyLen c' := by
          refine ht.put hargs rfl hpos (by omega) (by simp) ?_ (by simp)
          rintro p n ⟨⟩
          exact ⟨hfits, hscratch⟩
        rw [and_iff_right hfit, Nat.add_assoc, ← hpos]
        have := ih ht'
        rw [hscratch] at this
        exact this
      · -- the last array is outside the body, or something overlaps it
        have hcover := ht.covers_of_wraps hL hargs rfl (by omega)
        refine ⟨iff_of_false (fun hs => ?_) fun hc => hfit hc.1, fun hc => absurd hc.1 hfit⟩
        have hfds := hrest.only_fds hL hpos' hcover hs.apart
        have hmem := (hrest.args_prefix hL hpos').subset (hargs ▸ mem_append_right _ mem_cons_self)
        have hin := hs.arrays _ _ hmem
        rw [(hrest.of_fds hL hpos' hfds).1, hscratch] at hin
        simp only [wlBufferSize] at hL
        omega

/-! Arrays share the `scratch`. -/

/-- Whether an argument is an array. -/
def Arg.isArray : Arg → Bool
  | .array _ _ => true
  | _ => false

/-- `scratch` is that of one of the arrays. -/
def Cursor.Points (c : Cursor) : Prop :=
  ∀ p n, .array p n ∈ c.args → ∃ q m, .array q m ∈ c.args ∧ c.scratch = (q + 4, m)

/-- Every `a` gives an array, and `scratch` is that of one of them. -/
lemma Accepts.arrays {ls : List Char} {d : Cursor} (hL : bodyLen ≤ wlBufferSize)
    (h : Accepts b bodyLen ls c d) (hpos : c.pos ≤ bodyLen + 3) (hpoints : c.Points) :
    d.args.countP Arg.isArray = c.args.countP Arg.isArray + ls.count 'a' ∧ d.Points := by
  induction h with
  | nil => exact ⟨rfl, hpoints⟩
  | skip _ ih => exact ih hpos hpoints
  | @step l ls c c' d hl harg hrest ih =>
    obtain ⟨a, hputs, hargs⟩ := unpackArg_puts hL hpos harg
    have hmem {x : Arg} : x ∈ c'.args ↔ x ∈ c.args ∨ x = a := by simp [hargs]
    have hpoints' : c'.Points := by
      intro p n hx
      cases hputs with
      | array _ _ _ _ hscratch => exact ⟨_, _, hmem.mpr (.inr rfl), hscratch⟩
      | fd _ _ _ hscratch | word _ _ _ hscratch | null _ _ _ _ hscratch
      | str _ _ _ _ _ _ hscratch =>
        obtain ⟨q, m, hold, heq⟩ := hpoints p n ((hmem.mp hx).resolve_right (by simp))
        exact ⟨q, m, hmem.mpr (.inl hold), hscratch.trans heq⟩
    obtain ⟨hcount, hd⟩ := ih (unpackArg_pos hL hpos hputs) hpoints'
    refine ⟨?_, hd⟩
    have hletter : l = 'a' ↔ a.isArray = true := by
      rw [← (kind_iff l).2.1]
      cases hputs with
      | fd hkind => simp [hkind, kind, Arg.isArray]
      | word hkind | null hkind | str hkind | array hkind => simp [hkind, Arg.isArray]
    rw [hcount, hargs, countP_append, countP_singleton, count_cons]
    by_cases ha : l = 'a'
    · simp [ha, hletter.mp ha]
      omega
    · simp [ha, mt hletter.mpr ha]

lemma Apart.symm {r s : ℕ × ℕ} (h : Apart r s) : Apart s r := Or.symm h

lemma Apart.mono {r s r' s' : ℕ × ℕ} (h : Apart r s) (hr : r.1 ≤ r'.1 ∧ r'.1 + r'.2 ≤ r.1 + r.2)
    (hs : s.1 ≤ s'.1 ∧ s'.1 + s'.2 ≤ s.1 + s.2) : Apart r' s' := by
  rw [Apart] at *
  omega

/-- What a handler is given lies in the bytes of the argument, arrays apart. -/
lemma Arg.data_sub_extent {a : Arg} {x : ℕ × ℕ} (scratch : ℕ × ℕ) (ha : a.isArray = false)
    (hx : a.data scratch = some x) :
    ∃ e, a.extent = some e ∧ e.1 ≤ x.1 ∧ x.1 + x.2 ≤ e.1 + e.2 := by
  cases a with
  | word => cases hx; exact ⟨_, rfl, le_rfl, le_rfl⟩
  | str p n => cases hx; exact ⟨_, rfl, by simp, by simp only []; omega⟩
  | array => cases ha
  | null | fd => cases hx

/-- Arguments that are encoded apart are given to handlers apart, but for arrays: a second one is
given to the handler in place of the first, which does not matter if it is empty. -/
lemma shared_iff (hapart : (c.args.filterMap Arg.extent).Pairwise Apart) (hpoints : c.Points) :
    (c.args.filterMap (Arg.data c.scratch)).Pairwise Apart ↔
      c.args.countP Arg.isArray ≤ 1 ∨ c.scratch.2 = 0 := by
  rw [pairwise_filterMap] at hapart ⊢
  have hself : Apart c.scratch c.scratch ↔ c.scratch.2 = 0 := by
    rw [Apart]
    omega
  constructor
  · intro hdata
    by_contra! hnot
    rw [countP_eq_length_filter] at hnot
    obtain ⟨x, y, rest, hxy⟩ : ∃ x y rest, c.args.filter Arg.isArray = x :: y :: rest := by
      match hfilter : c.args.filter Arg.isArray with
      | [] | [_] => simp [hfilter] at hnot
      | x :: y :: rest => exact ⟨x, y, rest, rfl⟩
    have hpair := hdata.sublist (filter_sublist (p := Arg.isArray))
    rw [hxy] at hpair
    have harray {z : Arg} (hz : z ∈ c.args.filter Arg.isArray) : z.data c.scratch = some c.scratch := by
      have := (mem_filter.mp hz).2
      cases z <;> first | rfl | cases this
    have hsame := (pairwise_cons.mp hpair).1 y mem_cons_self c.scratch
      (harray (by simp [hxy])) c.scratch (harray (by simp [hxy]))
    exact hnot.2 (hself.mp hsame)
  · intro hcond
    have harrays : c.args.Pairwise fun x y => x.isArray = true → y.isArray = true →
        Apart c.scratch c.scratch := by
      rw [← pairwise_filter]
      obtain hone | hempty := hcond
      · rw [countP_eq_length_filter] at hone
        match hfilter : c.args.filter Arg.isArray with
        | [] => exact .nil
        | [_] => exact pairwise_singleton _ _
        | _ :: _ :: _ => simp [hfilter] at hone
      · exact pairwise_of_forall fun _ _ => hself.mpr hempty
    -- what an array is given is apart from what is no array
    have hother {x y : Arg} (hx : x ∈ c.args) (hxa : x.isArray = true) (hy : y ∈ c.args)
        (hya : y.isArray = false) {u v : ℕ × ℕ} (hu : x.data c.scratch = some u)
        (hv : y.data c.scratch = some v) : Apart u v := by
      obtain ⟨p, n, rfl⟩ : ∃ p n, x = .array p n := by cases x <;> simp_all [Arg.isArray]
      obtain rfl : c.scratch = u := Option.some.inj hu
      obtain ⟨q, m, hmem, heq⟩ := hpoints p n hx
      obtain ⟨e, he, hsub⟩ := Arg.data_sub_extent c.scratch hya hv
      have hne : Arg.array q m ≠ y := by
        rintro rfl
        cases hya
      have hsymm : Std.Symm fun a a' : Arg =>
          ∀ u, a.extent = some u → ∀ v, a'.extent = some v → Apart u v :=
        ⟨fun _ _ h u hu v hv => (h v hv u hu).symm⟩
      refine (hapart.forall hmem hy hne _ rfl e he).mono ?_ hsub
      rw [heq]
      dsimp only
      omega
    refine (hapart.and harrays).imp_of_mem fun {x y} hx hy hxy u hu v hv => ?_
    cases hxa : x.isArray with
    | true =>
      cases hya : y.isArray with
      | true =>
        have hu : some c.scratch = some u := by rw [← hu]; cases x <;> first | rfl | cases hxa
        have hv : some c.scratch = some v := by rw [← hv]; cases y <;> first | rfl | cases hya
        cases hu
        cases hv
        exact hxy.2 hxa hya
      | false => exact hother hx hxa hy hya hu hv
    | false =>
      cases hya : y.isArray with
      | true => exact (hother hy hya hx hxa hv hu).symm
      | false =>
        obtain ⟨e, he, hsub⟩ := Arg.data_sub_extent c.scratch hxa hu
        obtain ⟨f, hf, hsub'⟩ := Arg.data_sub_extent c.scratch hya hv
        exact (hxy.1 e he f hf).mono hsub hsub'

end Fit

/-! ## Which bytes are read -/

section Reads

variable {b : Buf} {bodyLen max : ℕ}

lemma unpackArg_reads_mono (l : Char) (c : Cursor) :
    c.reads ⊆ (unpackArg b bodyLen l c).1.reads := by
  intro k hk
  simp only [unpackArg, unpackString, unpackArray]
  repeat' split
  all_goals simp_all [Cursor.put, Cursor.readWord, Cursor.readByte]

/-- Nothing read is forgotten. -/
lemma unpackLoop_reads_mono (ls : List Char) (n : ℕ) (c : Cursor) :
    c.reads ⊆ (unpackLoop b bodyLen max ls n c).1.reads := by
  induction ls generalizing n c with
  | nil => exact fun _ hk => hk
  | cons l ls ih =>
    rw [unpackLoop]
    split_ifs
    · exact ih n c
    · exact fun _ hk => hk
    have hstep : c.reads ⊆ (unpackArg b bodyLen l c).1.reads := unpackArg_reads_mono l c
    split
    · rename_i c' heq
      rw [heq] at hstep
      exact fun _ hk => ih (n + 1) c' (hstep hk)
    · rename_i c' heq
      rw [heq] at hstep
      exact hstep

/-- One argument. The only byte outside the body it can come to is the one in front of it, for a
string whose length ends at `2^32`; whatever the lengths are, the cursor stays near the body. -/
lemma unpackArg_reads (hL : bodyLen ≤ wlBufferSize) {l : Char} {c c' : Cursor} {ok : Bool}
    (hpos : c.pos ≤ bodyLen + 3) (hreads : ∀ k ∈ c.reads, k < bodyLen)
    (hstep : unpackArg b bodyLen l c = (c', ok)) :
    ((∀ k ∈ c'.reads, k < bodyLen) ↔
      ¬(l = 's' ∧ c.pos + 4 ≤ bodyLen ∧ c.pos + 4 + get32 b c.pos = 4294967296)) ∧
    (ok = true → c'.pos ≤ bodyLen + 3) := by
  have hsmall := wrap32_four hpos hL
  rw [unpackArg, hsmall] at hstep
  simp only [wlBufferSize] at hL
  split_ifs at hstep with hshort
  · obtain ⟨rfl, rfl⟩ := Prod.mk.inj hstep
    exact ⟨⟨fun _ h => absurd h.2.1 (by omega), fun _ => hreads⟩, by simp⟩
  have hlen : get32 b c.pos < 4294967296 := Buf.word_lt _ 0
  have hword : l ≠ 'h' → c.pos + 4 ≤ bodyLen ∧ ∀ k ∈ c.readWord.reads, k < bodyLen := by
    intro hl
    have hin : c.pos + 4 ≤ bodyLen := by
      by_contra hout
      exact hshort ⟨hl, by omega⟩
    refine ⟨hin, fun k hmem => ?_⟩
    rcases mem_append.mp hmem with hold | hnew
    · exact hreads k hold
    · simp only [mem_cons, not_mem_nil, or_false] at hnew
      omega
  by_cases hs : l = 's'
  · subst hs
    obtain ⟨hin, hmem⟩ := hword (by decide)
    simp only [show kind 's' = some .string from rfl, unpackString, hsmall] at hstep
    simp only [true_and, hin]
    split_ifs at hstep with hzero hlong hnul
    · obtain ⟨rfl, rfl⟩ := Prod.mk.inj hstep
      exact ⟨⟨fun _ => by omega, fun _ => hmem⟩, fun _ => by simp only [Cursor.put]; omega⟩
    · obtain ⟨rfl, rfl⟩ := Prod.mk.inj hstep
      simp only [wrap32] at hlong
      exact ⟨⟨fun _ => by omega, fun _ => hmem⟩, by simp⟩
    -- the two outcomes of the look at the terminator read the same byte
    all_goals
      obtain ⟨rfl, rfl⟩ := Prod.mk.inj hstep
      simp only [wrap32] at hlong
      refine ⟨?_, ?_⟩
      · constructor
        · intro h hsum
          have := h (wrap32 (wrap32 (c.pos + 4 + get32 b c.pos) + 4294967295))
            (by simp [Cursor.put, Cursor.readByte])
          simp only [wrap32] at this
          omega
        · intro hsum k hk
          rcases mem_append.mp hk with hold | hnew
          · exact hmem k hold
          · rw [mem_singleton.mp hnew]
            simp only [wrap32]
            omega
      · first
        | exact fun h => Bool.noConfusion h
        | intro _
          simp only [Cursor.put, roundUp4, wrap32]
          omega
  · simp only [hs, false_and, not_false_eq_true, iff_true]
    by_cases hh : l = 'h'
    · subst hh
      simp only [show kind 'h' = some .fd from rfl] at hstep
      cases hfds : c.fds with
      | nil =>
        simp only [hfds, Prod.mk.injEq] at hstep
        obtain ⟨rfl, rfl⟩ := hstep
        exact ⟨hreads, by simp⟩
      | cons fd rest =>
        simp only [hfds, Prod.mk.injEq] at hstep
        obtain ⟨rfl, rfl⟩ := hstep
        exact ⟨hreads, fun _ => hpos⟩
    obtain ⟨hin, hmem⟩ := hword hh
    split at hstep
    · obtain ⟨rfl, rfl⟩ := Prod.mk.inj hstep
      exact ⟨hmem, fun _ => by simp only [Cursor.put]; omega⟩
    · exact absurd ((kind_iff l).1.mp (by assumption)) hs
    · simp only [unpackArray, hsmall] at hstep
      split_ifs at hstep with hlong
      · obtain ⟨rfl, rfl⟩ := Prod.mk.inj hstep
        exact ⟨hmem, by simp⟩
      obtain ⟨rfl, rfl⟩ := Prod.mk.inj hstep
      refine ⟨hmem, fun _ => ?_⟩
      simp only [Cursor.put, roundUp4, wrap32] at hlong ⊢
      omega
    · rename_i hkind
      simp only [kind] at hkind
      split_ifs at hkind <;> contradiction
    · obtain ⟨rfl, rfl⟩ := Prod.mk.inj hstep
      exact ⟨hreads, by simp⟩

/-- Only the body is read exactly when no string that is reached ends at `2^32`. -/
theorem unpackLoop_reads_iff (hL : bodyLen ≤ wlBufferSize) (ls : List Char) (n : ℕ) (c : Cursor)
    (hpos : c.pos ≤ bodyLen + 3) (hreads : ∀ k ∈ c.reads, k < bodyLen) :
    (∀ k ∈ (unpackLoop b bodyLen max ls n c).1.reads, k < bodyLen) ↔
      ¬ EndsAtWrap b bodyLen max ls n c := by
  induction ls generalizing n c with
  | nil => exact ⟨fun _ h => h, fun _ => hreads⟩
  | cons l ls ih =>
    rw [unpackLoop, EndsAtWrap]
    split_ifs with hq hmax
    · exact ih n c hpos hreads
    · exact ⟨fun _ h => h, fun _ => hreads⟩
    cases hstep : unpackArg b bodyLen l c with
    | mk c' ok =>
    obtain ⟨hiff, hnext⟩ := unpackArg_reads hL hpos hreads hstep
    rw [not_or, ← hiff]
    cases ok with
    | false => simp
    | true =>
      simp only [true_and]
      constructor
      · intro h
        have hin : ∀ k ∈ c'.reads, k < bodyLen := fun k hk =>
          h k (unpackLoop_reads_mono ls (n + 1) c' hk)
        exact ⟨hin, (ih (n + 1) c' (hnext rfl) hin).mp h⟩
      · rintro ⟨hin, hrest⟩
        exact (ih (n + 1) c' (hnext rfl) hin).mpr hrest

end Reads

/-- The state before the first letter. -/
lemma tidy_start (b : Buf) (bodyLen : ℕ) (fds : List ℕ) (scratch : ℕ × ℕ) :
    Tidy b bodyLen ⟨0, fds, scratch, [], []⟩ :=
  ⟨Nat.zero_le _, by simp, by simp, by simp, by simp, by simp, by simp⟩

/-- What `Safe` asks of an accepted message. -/
lemma Accepts.whole_iff {b : Buf} {bodyLen : ℕ} {ls : List Char} {fds : List ℕ} {scratch : ℕ × ℕ}
    {d : Cursor} (hL : bodyLen ≤ wlBufferSize)
    (h : Accepts b bodyLen ls ⟨0, fds, scratch, [], []⟩ d) :
    Sound b bodyLen d ∧ (d.args.filterMap (Arg.data d.scratch)).Pairwise Apart ↔
      LengthsFit b bodyLen ls 0 ∧ (ls.count 'a' ≤ 1 ∨ lastLength b ls 0 scratch.2 = 0) := by
  have hstart := tidy_start b bodyLen fds scratch
  obtain ⟨hsound, hlast⟩ := h.sound_iff hL hstart
  obtain ⟨hcount, hpoints⟩ := h.arrays hL hstart.pos hstart.scratch
  rw [← hsound]
  refine and_congr_right fun hs => ?_
  rw [shared_iff hs.apart hpoints, hcount, hlast (hsound.mp hs), countP_nil, Nat.zero_add]

/-- For every signature and body, `wl_connection_unpack` is safe if and only if no string it comes to
has a length that ends at `2^32`, and, when it succeeds, all lengths fit and there is one array at
most or the last one is empty. -/
theorem wlConnectionUnpack_safe_iff (signature : List Char) (b : Buf) (bodyLen max : ℕ)
    (fds : List ℕ) (scratch : ℕ × ℕ) (hL : bodyLen ≤ wlBufferSize) :
    Safe b bodyLen (wlConnectionUnpack signature b bodyLen max fds scratch) ↔
      ¬ EndsAtWrap b bodyLen max (signatureStart signature) 0 ⟨0, fds, scratch, [], []⟩ ∧
      ((wlConnectionUnpack signature b bodyLen max fds scratch).2 = true →
        LengthsFit b bodyLen (signatureStart signature) 0 ∧
          ((signatureStart signature).count 'a' ≤ 1 ∨
            lastLength b (signatureStart signature) 0 scratch.2 = 0)) := by
  rw [wlConnectionUnpack, ← unpackLoop_reads_iff hL _ 0 _ (Nat.zero_le _) (by simp)]
  constructor
  · intro h
    refine ⟨h.reads, fun hacc => ((accepts_unpackLoop hacc).whole_iff hL).mp ⟨?_, h.shared hacc⟩⟩
    exact ⟨h.strings hacc, h.arrays hacc, h.apart hacc⟩
  · rintro ⟨hreads, hcond⟩
    have hok := fun hacc => ((accepts_unpackLoop hacc).whole_iff hL).mpr (hcond hacc)
    exact ⟨hreads, fun hacc => (hok hacc).1.strings, fun hacc => (hok hacc).1.arrays,
      fun hacc => (hok hacc).1.apart, fun hacc => (hok hacc).2⟩

/-- A number, a title of four bytes and a descriptor. -/
def titleBody : Buf := Buf.ofList [1, 0, 0, 0, 4, 0, 0, 0, 0x66, 0x6f, 0x6f, 0]

theorem titleBody_safe :
    Safe titleBody 12 (wlConnectionUnpack ['u', 's', 'h'] titleBody 12 wlMaxArgs [3] (0, 0)) :=
  (wlConnectionUnpack_safe_iff ['u', 's', 'h'] titleBody 12 wlMaxArgs [3] (0, 0) (by decide)).mpr (by
    have hlen : get32 titleBody 4 = 4 := by decide
    refine ⟨(unpackLoop_reads_iff (by decide) _ 0 _ (Nat.zero_le _) (by simp)).mp (by decide),
      fun _ => ⟨?_, .inl (by decide)⟩⟩
    simp [signatureStart, LengthsFit, kind, hlen])

/-- `set_title` with the length `0xfffffffc`: the sum is `0`, and the byte in front of it is looked
at. -/
theorem set_title_reads_outside :
    ¬ Safe (Buf.ofList [0xfc, 0xff, 0xff, 0xff]) 4
      (wlConnectionUnpack ['s'] (Buf.ofList [0xfc, 0xff, 0xff, 0xff]) 4 wlMaxArgs [] (0, 0)) := by
  intro h
  have := h.reads 4294967295 (by decide)
  omega

end Wos.Wayland
