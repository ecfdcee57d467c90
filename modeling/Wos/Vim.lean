import Mathlib.Data.List.TakeWhile

/-!
# The editor's files

`buffer_load` reads a file with one call and cuts it into lines, and `buffer_save` writes the lines
back. What does not fit the table of lines or the memory, and what a call does not read or write, is
left out without an error.

## Main results

* `bufferLoad_eq`: the load keeps the first lines of what it gets, as many as find room;
* `keepsFile_iff`: a file is kept by loading and saving it if and only if a call fails, or all that
  is asked for is read, kept and written.
-/

namespace Wos.Vim

open List Option

/-- `MAX_LINES`. -/
def maxLines : ℕ := 4096

def newline : UInt8 := 10

/-- What the kernel and the allocator answer during a load. -/
structure LoadEnv where
  wopen : Bool
  wstat : Bool
  /-- Whether there is memory for the contents. -/
  contents : Bool
  /-- How many bytes `wread` gets, if it does not fail. -/
  wread : Option ℕ
  /-- Whether there is memory for a line behind so many others. -/
  line : ℕ → Bool
  /-- Whether there is memory for the empty line of an empty buffer. -/
  blank : Bool

/-- `line_insert`, at the end of the buffer. A line is copied up to a NUL. -/
def lineInsert (memory : Bool) (lines : List (List UInt8)) (text : List UInt8) :
    Option (List (List UInt8)) :=
  if lines.length < maxLines ∧ memory then some (lines ++ [text.takeWhile (· ≠ 0)]) else none

/-- The loop of `buffer_load`, with the lines so far, the text since `start` and the data left. -/
def splitLoop (env : LoadEnv) (lines : List (List UInt8)) (text : List UInt8) :
    List UInt8 → List (List UInt8)
  | [] => if text = [] then lines else (lineInsert (env.line lines.length) lines text).getD lines
  | b :: data =>
    if b = newline then
      match lineInsert (env.line lines.length) lines text with
      | some lines => splitLoop env lines [] data
      | none => lines
    else splitLoop env lines (text ++ [b]) data

/-- `buffer_load`: the lines, unless it returns an error. -/
def bufferLoad (env : LoadEnv) (file : List UInt8) : Option (List (List UInt8)) :=
  let blank := (lineInsert env.blank [] []).getD []
  if env.wopen = false then none
  else if env.wstat = false ∨ file = [] then some blank
  else if env.contents = false then none
  else env.wread.map fun got =>
    let lines := splitLoop env [] [] (file.take got)
    if lines = [] then blank else lines

/-- The loop of `buffer_save`, with the two answers of `wwrite` for each line up to the first error.
It is not called for the text of an empty line. -/
def saveLoop : List (List UInt8) → List (ℕ × ℕ) → Option (List UInt8)
  | [], _ => some []
  | line :: lines, (n, m) :: answers =>
    (saveLoop lines answers).map (line.take n ++ [newline].take m ++ ·)
  | _, [] => none

/-- `buffer_save`: the file it leaves, unless it returns an error. -/
def bufferSave (wopen : Bool) (answers : List (ℕ × ℕ)) (lines : List (List UInt8)) :
    Option (List UInt8) :=
  if wopen then saveLoop lines answers else none

/-- The text with its last line ended; no text becomes one empty line. -/
def ended (text : List UInt8) : List UInt8 :=
  if text.getLast? = some newline then text else text ++ [newline]

/-- If the load succeeds, the save returns an error or leaves the file as it was, with its last line
ended. An empty file gets one empty line. -/
def KeepsFile (env : LoadEnv) (wopen : Bool) (answers : List (ℕ × ℕ)) (file : List UInt8) : Prop :=
  ∀ lines file', bufferLoad env file = some lines → bufferSave wopen answers lines = some file' →
    file' = ended file

/-! ## What a load keeps -/

/-- The lines of a text. A newline at its end starts no further line. -/
def linesOf : List UInt8 → List (List UInt8)
  | [] => []
  | b :: data =>
    if b = newline then [] :: linesOf data
    else match linesOf data with
      | [] => [[b]]
      | line :: lines => (b :: line) :: lines

/-- The lines as they are written. -/
def written (lines : List (List UInt8)) : List UInt8 := lines.flatMap (· ++ [newline])

namespace LoadEnv

/-- How many lines find room in the table and in memory, behind `n` others. -/
def room (env : LoadEnv) (n : ℕ) : ℕ := ((range' n (maxLines - n)).takeWhile env.line).length

/-- The bytes of the file that a load gets to see, unless a call fails. A file whose size `wstat`
does not tell is taken for an empty one. -/
def got (env : LoadEnv) (file : List UInt8) : Option (List UInt8) :=
  if env.wopen = false then none
  else if env.wstat = false ∨ file = [] then some []
  else if env.contents = false then none
  else env.wread.map (file.take ·)

/-- How many lines of these bytes are kept. A buffer without a line gets an empty one. -/
def kept (env : LoadEnv) (data : List UInt8) : ℕ :=
  let n := min (env.room 0) (linesOf data).length
  if n = 0 then env.blank.toNat else n

lemma room_eq (env : LoadEnv) (n : ℕ) :
    env.room n = if n < maxLines ∧ env.line n then env.room (n + 1) + 1 else 0 := by
  by_cases h : n < maxLines
  · rw [room, room, show maxLines - n = maxLines - (n + 1) + 1 by omega, range'_succ,
      takeWhile_cons]
    split_ifs <;> simp_all
  · simp [room, h, Nat.sub_eq_zero_of_le (Nat.le_of_not_lt h)]

lemma got_prefix {env : LoadEnv} {file data : List UInt8} (h : env.got file = some data) :
    data <+: file := by
  simp only [got] at h
  split_ifs at h
  · cases h
    exact nil_prefix
  · obtain ⟨n, -, rfl⟩ := map_eq_some_iff.mp h
    exact take_prefix n file

end LoadEnv

section Lines

variable {text data : List UInt8}

@[simp] lemma linesOf_eq_nil_iff : linesOf text = [] ↔ text = [] := by
  cases text with
  | nil => simp [linesOf]
  | cons b data =>
    rw [linesOf]
    split_ifs
    · simp
    · split <;> simp

lemma linesOf_append_newline (htext : newline ∉ text) (data : List UInt8) :
    linesOf (text ++ newline :: data) = text :: linesOf data := by
  induction text with
  | nil => simp [linesOf]
  | cons b text ih =>
    obtain ⟨hb, htext⟩ := not_or.mp (mem_cons.not.mp htext)
    rw [cons_append, linesOf, if_neg (Ne.symm hb), ih htext]

lemma linesOf_of_notMem (htext : newline ∉ text) (hne : text ≠ []) : linesOf text = [text] := by
  induction text with
  | nil => exact absurd rfl hne
  | cons b text ih =>
    obtain ⟨hb, htext⟩ := not_or.mp (mem_cons.not.mp htext)
    rw [linesOf, if_neg (Ne.symm hb)]
    by_cases hnil : text = []
    · rw [hnil, linesOf]
    · rw [ih htext hnil]

lemma ended_cons (b : UInt8) (hne : data ≠ []) : ended (b :: data) = b :: ended data := by
  obtain ⟨c, data, rfl⟩ := exists_cons_of_ne_nil hne
  rw [ended, ended, getLast?_cons_cons]
  split_ifs <;> rfl

lemma written_linesOf (hne : text ≠ []) : written (linesOf text) = ended text := by
  induction text with
  | nil => exact absurd rfl hne
  | cons b data ih =>
    by_cases hnil : data = []
    · subst hnil
      by_cases hb : b = newline <;> simp [linesOf, hb, written, ended]
    rw [ended_cons b hnil, ← ih hnil, linesOf]
    split_ifs with hb
    · simp [written, hb]
    · obtain ⟨line, lines, h⟩ := exists_cons_of_ne_nil (linesOf_eq_nil_iff.not.mpr hnil)
      simp [h, written]

lemma newline_notMem_of_mem_linesOf {line : List UInt8} (h : line ∈ linesOf text) :
    newline ∉ line := by
  induction text generalizing line with
  | nil => cases h
  | cons b data ih =>
    rw [linesOf] at h
    split_ifs at h with hb
    · obtain rfl | h := mem_cons.mp h
      · exact not_mem_nil
      · exact ih h
    · split at h <;> grind

lemma linesOf_written {lines : List (List UInt8)} (h : ∀ line ∈ lines, newline ∉ line) :
    linesOf (written lines) = lines := by
  induction lines with
  | nil => rfl
  | cons line lines ih =>
    have hwritten : written (line :: lines) = line ++ newline :: written lines := by
      simp [written]
    rw [hwritten, linesOf_append_newline (h line mem_cons_self),
      ih fun l hl => h l (mem_cons_of_mem _ hl)]

end Lines

lemma lineInsert_eq {memory : Bool} {lines : List (List UInt8)} {text : List UInt8}
    (hnul : 0 ∉ text) : lineInsert memory lines text =
      if lines.length < maxLines ∧ memory then some (lines ++ [text]) else none := by
  have hcopy : text.takeWhile (· ≠ 0) = text :=
    takeWhile_eq_self_iff.mpr fun b hb => by simpa using ne_of_mem_of_not_mem hb hnul
  rw [lineInsert, hcopy]

/-- The loop adds lines as long as they find room. -/
lemma splitLoop_eq (env : LoadEnv) {data text : List UInt8} (lines : List (List UInt8))
    (hnul : 0 ∉ text ++ data) (htext : newline ∉ text) :
    splitLoop env lines text data =
      lines ++ (linesOf (text ++ data)).take (env.room lines.length) := by
  induction data generalizing lines text with
  | nil =>
    rw [append_nil] at *
    by_cases hnil : text = []
    · simp [splitLoop, hnil, linesOf]
    rw [splitLoop, if_neg hnil, lineInsert_eq hnul, linesOf_of_notMem htext hnil,
      env.room_eq lines.length]
    split_ifs <;> simp
  | cons b data ih =>
    rw [splitLoop]
    split_ifs with hb
    · subst hb
      simp only [mem_append, mem_cons, not_or] at hnul
      rw [lineInsert_eq hnul.1, linesOf_append_newline htext, env.room_eq lines.length]
      split_ifs with hroom
      · simpa using ih (lines ++ [text]) hnul.2.2 not_mem_nil
      · simp
    · have hmem : newline ∉ text ++ [b] := by simp [htext, Ne.symm hb]
      rw [append_cons text b data] at hnul ⊢
      exact ih lines hnul hmem

/-- The lines kept of these bytes. -/
def LoadEnv.table (env : LoadEnv) (data : List UInt8) : List (List UInt8) :=
  let lines := (linesOf data).take (env.room 0)
  if lines = [] then (if env.blank then [[]] else []) else lines

lemma LoadEnv.length_table (env : LoadEnv) (data : List UInt8) :
    (env.table data).length = env.kept data := by
  have hlen : ((linesOf data).take (env.room 0)).length = _ := length_take
  rw [table, kept, ← hlen]
  simp only [length_eq_zero_iff]
  split_ifs with hnil hblank
  · rw [hblank]; rfl
  · rw [Bool.eq_false_iff.mpr hblank]; rfl
  · rfl

/-- `buffer_load` keeps the first lines of what it gets, as many as find room. -/
lemma bufferLoad_eq (env : LoadEnv) {file : List UInt8} (hnul : 0 ∉ file) :
    bufferLoad env file = (env.got file).map env.table := by
  have hblank : (lineInsert env.blank [] []).getD [] = if env.blank then [[]] else [] := by
    rw [lineInsert_eq not_mem_nil]
    cases env.blank <;> rfl
  simp only [bufferLoad, LoadEnv.got]
  split_ifs with hopen hstat hmem
  · rfl
  · simp [hblank, LoadEnv.table, linesOf]
  · rfl
  rw [Option.map_map]
  refine congrArg (env.wread.map ·) (funext fun n => ?_)
  have hnul : 0 ∉ [] ++ file.take n := fun h => hnul (mem_of_mem_take h)
  rw [splitLoop_eq env [] hnul not_mem_nil, hblank]
  rfl

/-! ## What a save writes -/

/-- All the bytes of these lines are written. -/
def Whole (lines : List (List UInt8)) (answers : List (ℕ × ℕ)) : Prop :=
  ∀ x ∈ lines.zip answers, x.1.length ≤ x.2.1 ∧ 1 ≤ x.2.2

instance (lines : List (List UInt8)) (answers : List (ℕ × ℕ)) : Decidable (Whole lines answers) :=
  inferInstanceAs (Decidable (∀ x ∈ lines.zip answers, _))

@[simp] lemma whole_cons {line : List UInt8} {lines : List (List UInt8)} {n m : ℕ}
    {answers : List (ℕ × ℕ)} :
    Whole (line :: lines) ((n, m) :: answers) ↔
      (line.length ≤ n ∧ 1 ≤ m) ∧ Whole lines answers := by
  simp [Whole]

lemma isSome_saveLoop {lines : List (List UInt8)} {answers : List (ℕ × ℕ)} :
    (saveLoop lines answers).isSome ↔ lines.length ≤ answers.length := by
  induction lines generalizing answers with
  | nil => simp [saveLoop]
  | cons line lines ih =>
    cases answers with
    | nil => simp [saveLoop]
    | cons a answers => simpa [saveLoop] using ih

/-- What is written is never more than the lines, and as much only if it is the lines. -/
lemma saveLoop_spec {lines : List (List UInt8)} {answers : List (ℕ × ℕ)} {file : List UInt8}
    (h : saveLoop lines answers = some file) :
    file.length ≤ (written lines).length ∧ (Whole lines answers → file = written lines) ∧
      (file.length = (written lines).length → Whole lines answers) := by
  induction lines generalizing answers file with
  | nil =>
    cases h
    simp [written, Whole]
  | cons line lines ih =>
    cases answers with
    | nil => cases h
    | cons a answers =>
    obtain ⟨n, m⟩ := a
    obtain ⟨rest, hrest, rfl⟩ := map_eq_some_iff.mp h
    obtain ⟨hle, heq, hwhole⟩ := ih hrest
    have hwritten : written (line :: lines) = line ++ [newline] ++ written lines := rfl
    simp only [hwritten, length_append, length_take, length_singleton, whole_cons]
    refine ⟨by omega, fun ⟨⟨hn, hm⟩, hrest⟩ => ?_, fun hlen => ⟨by omega, hwhole (by omega)⟩⟩
    rw [take_of_length_le hn, take_of_length_le hm, heq hrest]

/-- A save leaves a file at least as long as the lines only if it leaves the lines. -/
lemma saveLoop_eq_iff {lines : List (List UInt8)} {answers : List (ℕ × ℕ)}
    {file file' : List UInt8} (h : saveLoop lines answers = some file')
    (hlen : (written lines).length ≤ file.length) :
    file' = file ↔ written lines = file ∧ Whole lines answers := by
  obtain ⟨hle, heq, hwhole⟩ := saveLoop_spec h
  constructor
  · rintro rfl
    have hall := hwhole (by omega)
    exact ⟨(heq hall).symm, hall⟩
  · rintro ⟨rfl, hall⟩
    exact heq hall

/-! ## Files that are kept -/

section Kept

variable {file data : List UInt8}

lemma exists_ended_eq (text : List UInt8) : ∃ front, ended text = front ++ [newline] := by
  rw [ended]
  split_ifs with h
  · exact getLast?_eq_some_iff.mp h
  · exact ⟨text, rfl⟩

lemma length_ended (text : List UInt8) :
    (ended text).length = text.length + if text.getLast? = some newline then 0 else 1 := by
  rw [ended]
  split_ifs <;> simp

/-- The beginning of a file that is the same when ended: all of it, or all but the end of its last
line. -/
lemma ended_eq_iff (h : data <+: file) : ended data = ended file ↔
    data = file ∨ file = data ++ [newline] ∧ data.getLast? ≠ some newline := by
  constructor
  · intro heq
    have hlen := congrArg length heq
    rw [length_ended, length_ended] at hlen
    obtain hlast | hlast := em (data.getLast? = some newline)
    · exact .inl (h.eq_of_length_le (by rw [if_pos hlast] at hlen; omega))
    by_cases hfile : file.getLast? = some newline
    · rw [ended, ended, if_neg hlast, if_pos hfile] at heq
      exact .inr ⟨heq.symm, hlast⟩
    · rw [ended, ended, if_neg hlast, if_neg hfile] at heq
      exact .inl (append_cancel_right heq)
  · rintro (rfl | ⟨rfl, hlast⟩)
    · rfl
    · simp [ended, hlast]

lemma length_ended_le (h : data <+: file) : (ended data).length ≤ (ended file).length := by
  obtain ⟨rest, rfl⟩ := h
  rw [length_ended, length_ended]
  cases rest with
  | nil => rw [append_nil]
  | cons b rest =>
    simp only [length_append, length_cons]
    split_ifs <;> omega

lemma written_append (lines lines' : List (List UInt8)) :
    written (lines ++ lines') = written lines ++ written lines' := flatMap_append

lemma length_written_le (lines : List (List UInt8)) : lines.length ≤ (written lines).length := by
  induction lines with
  | nil => exact Nat.zero_le _
  | cons line lines ih =>
    have hwritten : written (line :: lines) = line ++ [newline] ++ written lines := rfl
    simp only [hwritten, length_append, length_cons, length_nil]
    omega

/-- The first lines of the beginning of a file are the file if and only if nothing is missing. -/
lemma written_take_eq_iff (k : ℕ) (h : data <+: file) (hne : data ≠ []) :
    written ((linesOf data).take k) = ended file ↔
      ended data = ended file ∧ (linesOf data).length ≤ k := by
  constructor
  · intro heq
    have hcut : written ((linesOf data).take k) ++ written ((linesOf data).drop k) = ended data := by
      rw [← written_append, take_append_drop, written_linesOf hne]
    have hlen := congrArg length hcut
    rw [length_append, heq] at hlen
    have hle := length_ended_le h
    have hrest := length_written_le ((linesOf data).drop k)
    rw [length_drop] at hrest
    rw [length_eq_zero_iff.mp (show (written ((linesOf data).drop k)).length = 0 by omega),
      append_nil, heq] at hcut
    exact ⟨hcut.symm, by omega⟩
  · rintro ⟨heq, hk⟩
    rw [take_of_length_le hk, written_linesOf hne, heq]

namespace LoadEnv

/-- The table holds all lines of the file. -/
def Fits (env : LoadEnv) (file data : List UInt8) : Prop :=
  data ≠ [] ∧ (linesOf data).length ≤ env.room 0 ∨ env.blank = true ∧ ended file = [newline]

instance (env : LoadEnv) (file data : List UInt8) : Decidable (env.Fits file data) :=
  inferInstanceAs (Decidable (_ ∨ _))

/-- What is written back is the file exactly if all of it was read and the table had room. -/
lemma written_table_eq_iff (env : LoadEnv) (h : data <+: file) :
    written (env.table data) = ended file ↔ ended data = ended file ∧ env.Fits file data := by
  by_cases hsome : (linesOf data).take (env.room 0) = []
  · -- at most the empty line has been added
    have hnone : ¬ (data ≠ [] ∧ (linesOf data).length ≤ env.room 0) := by
      rintro ⟨hne, hk⟩
      rw [take_of_length_le hk] at hsome
      exact hne (linesOf_eq_nil_iff.mp hsome)
    rw [Fits, or_iff_right hnone, table]
    simp only [hsome, if_true]
    obtain ⟨front, hfront⟩ := exists_ended_eq file
    obtain ⟨front', hfront'⟩ := exists_ended_eq data
    have hle := length_ended_le h
    rw [hfront, hfront'] at *
    rw [length_append, length_append] at hle
    cases hblank : env.blank with
    | false => simp [written]
    | true =>
      have hshort : front = [] → front' = [] := fun hnil =>
        length_eq_zero_iff.mp (by rw [hnil, length_nil] at hle; omega)
      simp only [written, if_true, true_and]
      constructor
      · intro hone
        have hnil : front = [] := by simpa using hone
        simp [hnil, hshort hnil]
      · rintro ⟨-, hone⟩
        exact hone.symm
  · have hne : data ≠ [] := by
      rintro rfl
      exact hsome take_nil
    rw [table, if_neg hsome, written_take_eq_iff _ h hne, Fits]
    refine and_congr_right fun heq => ⟨fun hk => .inl ⟨hne, hk⟩, ?_⟩
    rintro (⟨-, hk⟩ | ⟨-, hone⟩)
    · exact hk
    · -- an empty line, for which there is room
      have hle := length_written_le (linesOf data)
      rw [written_linesOf hne, heq, hone, length_singleton] at hle
      have hroom : env.room 0 ≠ 0 := fun h0 => hsome (by rw [h0, take_zero])
      omega

lemma length_written_table_le (env : LoadEnv) (h : data <+: file) :
    (written (env.table data)).length ≤ (ended file).length := by
  rw [table]
  split_ifs with hsome hblank
  · obtain ⟨front, hfront⟩ := exists_ended_eq file
    simp [hfront, written]
  · exact Nat.zero_le _
  · have hne : data ≠ [] := by
      rintro rfl
      exact hsome take_nil
    refine Nat.le_trans ?_ (length_ended_le h)
    rw [← written_linesOf hne, ← take_append_drop (env.room 0) (linesOf data), written_append,
      length_append, take_append_drop]
    exact Nat.le_add_right _ _

lemma newline_notMem_of_mem_table {env : LoadEnv} {line : List UInt8}
    (h : line ∈ env.table data) : newline ∉ line := by
  rw [table] at h
  split_ifs at h with hsome hblank
  · rw [mem_singleton.mp h]
    exact not_mem_nil
  · cases h
  · exact newline_notMem_of_mem_linesOf (mem_of_mem_take h)

end LoadEnv

/-- A file without NUL is kept if and only if a call fails that is checked (`wopen`, `wread`, the
allocation of the contents, a `wwrite` for one of the lines kept), or else the load gets the file,
all or all but a newline at its end, the table holds all its lines, and all their bytes are
written. -/
theorem keepsFile_iff (env : LoadEnv) (wopen : Bool) (answers : List (ℕ × ℕ))
    (hnul : 0 ∉ file) :
    KeepsFile env wopen answers file ↔
      ∀ data ∈ env.got file, wopen = true → env.kept data ≤ answers.length →
        (data = file ∨ file = data ++ [newline] ∧ data.getLast? ≠ some newline) ∧
          env.Fits file data ∧ Whole (linesOf (ended file)) answers := by
  have hstep : ∀ data ∈ env.got file,
      ((∀ file', bufferSave wopen answers (env.table data) = some file' → file' = ended file) ↔
        (wopen = true → env.kept data ≤ answers.length →
          (data = file ∨ file = data ++ [newline] ∧ data.getLast? ≠ some newline) ∧
            env.Fits file data ∧ Whole (linesOf (ended file)) answers)) := by
    intro data hdata
    have hpre := env.got_prefix hdata
    cases wopen with
    | false => simp [bufferSave]
    | true =>
      rw [← env.length_table, ← isSome_saveLoop, ← ended_eq_iff hpre, ← and_assoc,
        ← env.written_table_eq_iff hpre]
      have hlines : written (env.table data) = ended file →
          linesOf (ended file) = env.table data := fun heq =>
        heq ▸ linesOf_written fun line hline => LoadEnv.newline_notMem_of_mem_table hline
      have hle := env.length_written_table_le hpre
      cases hsave : saveLoop (env.table data) answers with
      | none => simp [bufferSave, hsave]
      | some left =>
        have hleft := saveLoop_eq_iff hsave hle
        simp only [bufferSave, if_true, hsave, some.injEq, forall_eq', isSome_some, forall_const,
          hleft]
        exact and_congr_right fun heq => by rw [hlines heq]
  rw [KeepsFile, bufferLoad_eq env hnul]
  constructor
  · intro h data hdata
    exact (hstep data hdata).mp fun file' => h _ _ (congrArg (Option.map _) hdata)
  · intro h lines file' hload
    obtain ⟨data, hdata, rfl⟩ := map_eq_some_iff.mp hload
    exact (hstep data hdata).mpr (h data hdata) file'

end Kept

/-- Two lines of which the second has no end, and memory for just these two. -/
theorem keepsFile_iff_ab : KeepsFile ⟨true, true, true, some 5, (· < 2), false⟩ true
    [(1, 1), (3, 2), (0, 0)] [97, newline, 98, 99] :=
  (keepsFile_iff _ _ _ (by decide)).mpr (by
    intro data hdata
    cases hdata
    decide)

/-- A call that writes one byte of two loses the other. -/
theorem not_keepsFile_ab : ¬ KeepsFile ⟨true, true, true, some 2, fun _ => true, true⟩ true
    [(1, 1)] [97, 98] := by
  intro h
  exact absurd (h [[97, 98]] [97, newline] (by decide) (by decide)) (by decide)

end Wos.Vim
