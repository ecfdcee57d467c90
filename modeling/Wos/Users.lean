import Mathlib.Data.Nat.Digits.Lemmas
import Wos.Base.Machine
import Wos.Wfs.Paths

/-!
# The user database

The users of `kernel/fs/user.c` live in a table in memory, and on disk in two kinds of files: the
list `/userconfig/users`, with a line `name:uid:roles[:shell]` for each, and a file with salt and
hash for each password. Every change rewrites the list or a password file, and `user_init` reads
them back.

There is no way to remove a user, so the used slots of the table are its first ones and the table is
a list here. Disk writes succeed, but for those of `attempt`. A line of the list takes at most 118
bytes, and the buffer that it is put together in has 128 for each user, so nothing is cut off there.

## Main definitions

* `User`, `Disk`, `UserDb`: an entry, the files, and the table with them;
* `saveUserList`, `parseEntry`, `userInit`: the list written and read;
* `UserDb.exec`: the four changes; `UserDb.attempt`: what they do to the table if saves fail;
* `Sound`: what holds of table and files after every call.

## Main results

* `parseU64_decimal`, `parseEntry_userLine`, `lines_append`: what is written is read back;
* `reload_same_iff`: after any calls, a reboot finds the same users if and only if no shell has a
  newline;
* `failed_keeps_iff`: a negative code means an unchanged table only for `user_add`, or where there
  was nothing to change.
-/

namespace Wos.Users

open List Nat

open Wos.Wfs (CString)

/-- `W_NAME_LEN`. -/
def wNameLen : ℕ := 31

/-- `W_MAX_USERS`. -/
def wMaxUsers : ℕ := 32

/-- `W_SHELL_MAX`. -/
def wShellMax : ℕ := 63

/-- `W_ROLE_USEREDITOR`. -/
def roleUsereditor : UInt32 := 2

/-- A used entry of the table. -/
@[ext]
structure User where
  name : List UInt8
  uid : UInt32
  roles : UInt32
  salt : UInt64
  hash : UInt64
  shell : List UInt8
  deriving DecidableEq, Repr

/-- The files under `/userconfig`: the list, empty when there is none, and the passwords. -/
structure Disk where
  list : List UInt8
  password : List UInt8 → Option (List UInt8)

structure UserDb where
  users : List User
  nextUid : UInt32
  disk : Disk

/-! ## Text -/

/-- `append_u64`. -/
def decimal (v : ℕ) : List UInt8 :=
  if v = 0 then [48] else (Nat.digits 10 v).reverse.map fun d => UInt8.ofNat (48 + d)

/-- `parse_u64`, from the value `v` on. -/
def parseU64 : ℕ → List UInt8 → ℕ × List UInt8
  | v, [] => (v, [])
  | v, b :: bs =>
    if 48 ≤ b.toNat ∧ b.toNat ≤ 57 then
      parseU64 ((v * 10 + (b.toNat - 48)) % 18446744073709551616) bs
    else (v, b :: bs)

/-- The line of a user, with the shell only when there is one. -/
def userLine (e : User) : List UInt8 :=
  e.name ++ 58 :: (decimal e.uid.toNat ++ 58 :: (decimal e.roles.toNat ++
    if e.shell = [] then [] else 58 :: e.shell))

/-- `save_user_list`, the text. -/
def saveUserList (users : List User) : List UInt8 := users.flatMap fun e => userLine e ++ [10]

/-- `save_password`, the text. -/
def passwordText (e : User) : List UInt8 :=
  decimal e.salt.toNat ++ 58 :: (decimal e.hash.toNat ++ [10])

/-- `save_password` finds a place for the file: the name is not that of the list, which is no
directory, and not too long for one. -/
def storable (name : List UInt8) : Bool := name ≠ ascii "users" ∧ name.length ≤ nameMax

/-- `load_password`. -/
def loadPassword (disk : Disk) (e : User) : User :=
  match disk.password e.name with
  | none => { e with salt := 0, hash := 0 }
  | some text =>
    let salt := parseU64 0 (text.take 63)
    { e with
      salt := UInt64.ofNat salt.1
      hash := match salt.2 with
        | 58 :: rest => UInt64.ofNat (parseU64 0 rest).1
        | _ => 0 }

/-- `parse_list_line`, up to the table. -/
def parseEntry (line : List UInt8) : Option User :=
  let name := (line.take wNameLen).takeWhile (· ≠ 58)
  match line.drop name.length with
  | 58 :: rest =>
    if name = [] then none
    else
      let uid := parseU64 0 rest
      match uid.2 with
      | 58 :: rest =>
        let roles := parseU64 0 rest
        some {
          name := name
          uid := UInt32.ofNat uid.1
          roles := UInt32.ofNat roles.1
          salt := 0
          hash := 0
          shell := match roles.2 with
            | 58 :: rest => (rest.takeWhile (· ≠ 10)).take wShellMax
            | _ => [] }
      | _ => none
  | _ => none

/-- The text cut at every newline and NUL. -/
def lines : List UInt8 → List (List UInt8)
  | [] => [[]]
  | b :: bs =>
    if b = 10 ∨ b = 0 then [] :: lines bs
    else
      match lines bs with
      | [] => [[b]]
      | l :: ls => (b :: l) :: ls

/-- One line of the list into the table. -/
def addLine (disk : Disk) (t : List User × UInt32) (line : List UInt8) : List User × UInt32 :=
  match parseEntry line with
  | none => t
  | some e =>
    if t.1.length < wMaxUsers then
      (t.1 ++ [loadPassword disk e], if t.2 ≤ e.uid then e.uid + 1 else t.2)
    else t

/-- `hash_password`. -/
def hashPassword (salt : UInt64) (password : List UInt8) : UInt64 :=
  let round (h : UInt64) : UInt64 :=
    (password.foldl (fun h b => (h ^^^ b.toUInt64) * 0x100000001b3) h ^^^ salt) * 0x100000001b3
  let h := Nat.repeat round 4096 (0xcbf29ce484222325 ^^^ salt)
  if h = 0 then 1 else h

/-- A file written. -/
def Disk.setPassword (d : Disk) (e : User) : Disk :=
  { d with
    password := fun name => if name = e.name then some (passwordText e) else d.password name }

/-- `user_init`, with what `make_salt` returns. A table without root gets one in its first slot. -/
def userInit (disk : Disk) (salt : UInt64) : UserDb :=
  let t := ((lines (disk.list.take 4095)).filter (· ≠ [])).foldl (addLine disk) ([], 1)
  if t.1.any (·.uid == 0) then ⟨t.1, t.2, disk⟩
  else
    let root : User :=
      ⟨ascii "root", 0, 0, salt, hashPassword salt (ascii "1234"),
        (t.1.head?.map User.shell).getD []⟩
    let users := root :: t.1.tail
    ⟨users, t.2, { disk with list := saveUserList users }.setPassword root⟩

/-! ## Calls -/

/-- A call of one of the four functions that change the table, with the uid that asks. Where a salt
is made, it comes with the call. -/
inductive UserCall
  | add (actor : UInt32) (name password : CString) (roles : UInt32) (salt : UInt64)
  | setRoles (actor : UInt32) (name : CString) (roles : UInt32)
  | setShell (actor : UInt32) (name shell : CString)
  | setPassword (actor : UInt32) (name old new : CString) (salt : UInt64)

namespace UserDb

/-- `find_by_name`. -/
def findByName (s : UserDb) (name : List UInt8) : Option User := s.users.find? (·.name == name)

/-- Root, or a holder of the role. -/
def privileged (s : UserDb) (actor : UInt32) : Bool :=
  actor == 0 || ((s.users.find? (·.uid == actor)).any fun e => e.roles &&& roleUsereditor != 0)

/-- The first entry with the name, changed. -/
def setFirst (name : List UInt8) (f : User → User) : List User → List User
  | [] => []
  | e :: es => if e.name = name then f e :: es else e :: setFirst name f es

/-- Salt and hash for a password; none for the empty one. -/
def keyed (password : List UInt8) (salt : UInt64) (e : User) : User :=
  if password = [] then { e with salt := 0, hash := 0 }
  else { e with salt := salt, hash := hashPassword salt password }

/-- A change of the first entry with the name, and the list saved. -/
def change (s : UserDb) (name : List UInt8) (f : User → User) : UserDb :=
  let users := setFirst name f s.users
  { s with users := users, disk := { s.disk with list := saveUserList users } }

/-- `user_add`. When the password cannot be saved, the entry is given up again. -/
def add (s : UserDb) (actor : UInt32) (name password : List UInt8) (roles : UInt32)
    (salt : UInt64) : UserDb × Except Errno ℕ :=
  if s.privileged actor = false then (s, .error .EPERM)
  else if name = [] ∨ wNameLen < name.length then (s, .error .EINVAL)
  else if 47 ∈ name ∨ 58 ∈ name ∨ 10 ∈ name ∨ 46 ∈ name then (s, .error .EINVAL)
  else if (s.findByName name).isSome then (s, .error .EEXIST)
  else if wMaxUsers ≤ s.users.length then (s, .error .ENOSPC)
  else
    let e := keyed password salt ⟨name, s.nextUid, roles, 0, 0, []⟩
    if storable name then
      let users := s.users ++ [e]
      (⟨users, s.nextUid + 1, { s.disk with list := saveUserList users }.setPassword e⟩,
        .ok e.uid.toNat)
    else
      (⟨s.users, s.nextUid + 1, { s.disk with list := saveUserList s.users }⟩,
        .error (if name = ascii "users" then .ENOTDIR else .ENAMETOOLONG))

/-- `user_set_roles`. -/
def setRoles (s : UserDb) (actor : UInt32) (name : List UInt8) (roles : UInt32) :
    UserDb × Except Errno ℕ :=
  if s.privileged actor = false then (s, .error .EPERM)
  else
    match s.findByName name with
    | none => (s, .error .ENOENT)
    | some e =>
      if e.uid = 0 then (s, .error .EPERM)
      else (s.change name ({ · with roles := roles }), .ok 0)

/-- `user_set_shell`. -/
def setShell (s : UserDb) (actor : UInt32) (name shell : List UInt8) : UserDb × Except Errno ℕ :=
  match s.findByName name with
  | none => (s, .error .ENOENT)
  | some e =>
    if s.privileged actor = false ∧ e.uid ≠ actor then (s, .error .EPERM)
    else if wShellMax < shell.length then (s, .error .ENAMETOOLONG)
    else (s.change name ({ · with shell := shell }), .ok 0)

/-- `user_set_password`. -/
def setPassword (s : UserDb) (actor : UInt32) (name old new : List UInt8) (salt : UInt64) :
    UserDb × Except Errno ℕ :=
  match s.findByName name with
  | none => (s, .error .ENOENT)
  | some e =>
    if s.privileged actor = false ∧ e.uid ≠ actor then (s, .error .EPERM)
    else if s.privileged actor = false ∧ e.hash ≠ 0 ∧ hashPassword e.salt old ≠ e.hash then
      (s, .error .EACCES)
    else
      ({ s with
        users := setFirst name (keyed new salt) s.users
        disk := s.disk.setPassword (keyed new salt e) }, .ok 0)

def exec (s : UserDb) : UserCall → UserDb × Except Errno ℕ
  | .add actor name password roles salt => s.add actor name.1 password.1 roles salt
  | .setRoles actor name roles => s.setRoles actor name.1 roles
  | .setShell actor name shell => s.setShell actor name.1 shell.1
  | .setPassword actor name old new salt => s.setPassword actor name.1 old.1 new.1 salt

end UserDb

/-! ## Reading back what was written -/

section Text

lemma digit_toNat {d : ℕ} (h : d < 10) : (UInt8.ofNat (48 + d)).toNat = 48 + d := by
  rw [UInt8.toNat_ofNat']
  omega

variable {rest : List UInt8} {disk : Disk} {users : List User}

lemma parseU64_digits (ds : List ℕ) (h : ∀ d ∈ ds, d < 10) (v : ℕ)
    (hrest : ∀ b ∈ rest.head?, b = 58 ∨ b = 10) :
    parseU64 v (ds.map (fun d => UInt8.ofNat (48 + d)) ++ rest) =
      (ds.foldl (fun v d => (v * 10 + d) % 18446744073709551616) v, rest) := by
  induction ds generalizing v with
  | nil =>
    cases rest with
    | nil => rfl
    | cons b bs =>
      rcases hrest b rfl with rfl | rfl <;> rfl
  | cons d ds ih =>
    obtain ⟨hd, hds⟩ := forall_mem_cons.mp h
    have hnat := digit_toNat hd
    rw [map_cons, cons_append, parseU64, if_pos (by omega), hnat, Nat.add_sub_cancel_left]
    exact ih hds _

lemma foldl_mod (ds : List ℕ) (v : ℕ) :
    ds.foldl (fun v d => (v * 10 + d) % 18446744073709551616) (v % 18446744073709551616) =
      ds.foldl (fun v d => v * 10 + d) v % 18446744073709551616 := by
  induction ds generalizing v with
  | nil => rfl
  | cons d ds ih =>
    rw [foldl_cons, foldl_cons, ← ih (v * 10 + d)]
    congr 1
    omega

variable {v : ℕ}

/-- A number is read back, up to the separator after it. -/
theorem parseU64_decimal (hv : v < 18446744073709551616)
    (hrest : ∀ b ∈ rest.head?, b = 58 ∨ b = 10) : parseU64 0 (decimal v ++ rest) = (v, rest) := by
  rw [decimal]
  split
  next hz =>
    rw [hz]
    exact parseU64_digits [0] (by simp) 0 hrest
  next =>
    have hdigits : ∀ d ∈ (Nat.digits 10 v).reverse, d < 10 := fun d hd =>
      digits_lt_base (by decide) (mem_reverse.mp hd)
    have hvalue : (Nat.digits 10 v).reverse.foldl (fun v d => v * 10 + d) 0 = v := by
      rw [foldl_reverse]
      conv_rhs => rw [← ofDigits_digits 10 v, ofDigits_eq_foldr]
      simp [mul_comm, add_comm]
    have hmod := foldl_mod (Nat.digits 10 v).reverse 0
    rw [hvalue, mod_eq_of_lt hv] at hmod
    rw [parseU64_digits _ hdigits 0 hrest]
    exact congrArg (·, rest) hmod

lemma decimal_digit {b : UInt8} (hb : b ∈ decimal v) : 48 ≤ b.toNat ∧ b.toNat ≤ 57 := by
  rw [decimal] at hb
  split at hb
  next =>
    rw [mem_singleton.mp hb]
    decide
  next =>
    obtain ⟨d, hd, rfl⟩ := mem_map.mp hb
    have hlt := digits_lt_base (by decide : 1 < 10) (mem_reverse.mp hd)
    have hnat := digit_toNat hlt
    omega

lemma length_decimal_le {k : ℕ} (hk : 0 < k) (hv : v < 10 ^ k) : (decimal v).length ≤ k := by
  rw [decimal]
  split_ifs
  · exact hk
  rw [length_map, length_reverse]
  exact (digits_length_le_iff (by decide) v).mpr hv

/-- What the checks of the calls leave of a name and a shell. -/
structure User.Ok (e : User) : Prop where
  /-- The name is not empty. -/
  name_ne : e.name ≠ []
  /-- It has no colon, newline or NUL, which would break its line. -/
  name_plain : ∀ b ∈ e.name, b ≠ 58 ∧ b ≠ 10 ∧ b ≠ 0
  /-- Its password file is not the list, and has a name the volume can store. -/
  stored : storable e.name = true
  /-- The shell fits its field. -/
  shell_le : e.shell.length ≤ wShellMax
  /-- It has no NUL. -/
  shell_nul : 0 ∉ e.shell

variable {e : User}

lemma User.Ok.name_le (h : e.Ok) : e.name.length ≤ nameMax := by
  have hs := h.stored
  simp only [storable, Bool.decide_and, Bool.and_eq_true, decide_eq_true_eq] at hs
  exact hs.2

/-- The line of a user is read back, all but salt and hash. -/
theorem parseEntry_userLine (h : e.Ok) (hshell : 10 ∉ e.shell) :
    parseEntry (userLine e) = some { e with salt := 0, hash := 0 } := by
  have hlen := h.name_le
  have hname : ((userLine e).take wNameLen).takeWhile (· ≠ 58) = e.name := by
    have hfits : e.name.length ≤ wNameLen := le_trans hlen (by decide)
    rw [userLine, take_append, take_of_length_le hfits,
      takeWhile_append_of_pos (by simpa using fun b hb => (h.name_plain b hb).1)]
    rw [show wNameLen - e.name.length = (wNameLen - e.name.length - 1) + 1 by
      simp only [wNameLen, nameMax] at *; omega]
    simp
  have htail : parseU64 0 (decimal e.roles.toNat ++ if e.shell = [] then [] else 58 :: e.shell) =
      (e.roles.toNat, if e.shell = [] then [] else 58 :: e.shell) := by
    refine parseU64_decimal (lt_trans e.roles.toNat_lt (by decide)) ?_
    intro b hb
    split at hb
    · cases hb
    · exact .inl (Option.some.inj hb).symm
  have huid : ∀ rest, parseU64 0 (decimal e.uid.toNat ++ 58 :: rest) = (e.uid.toNat, 58 :: rest) :=
    fun rest => parseU64_decimal (lt_trans e.uid.toNat_lt (by decide))
      fun b hb => .inl (Option.some.inj hb).symm
  have hdrop : (userLine e).drop e.name.length = 58 :: (decimal e.uid.toNat ++
      58 :: (decimal e.roles.toNat ++ if e.shell = [] then [] else 58 :: e.shell)) := drop_left
  simp only [parseEntry, hname, hdrop, if_neg h.name_ne, huid, htail, UInt32.ofNat_toNat]
  congr 2
  by_cases hs : e.shell = []
  · simp [hs]
  have hall : ∀ b ∈ e.shell, decide (b ≠ 10) = true :=
    fun b hb => decide_eq_true fun heq => hshell (heq ▸ hb)
  simp only [if_neg hs]
  rw [takeWhile_eq_self_iff.mpr hall, take_of_length_le h.shell_le]

/-- Salt and hash are read back from the password file. -/
lemma loadPassword_eq (h : disk.password e.name = some (passwordText e)) :
    loadPassword disk { e with salt := 0, hash := 0 } = e := by
  have hsalt := length_decimal_le (k := 20) (by decide)
    (lt_trans e.salt.toNat_lt (by decide : 2 ^ 64 < 10 ^ 20))
  have hhash := length_decimal_le (k := 20) (by decide)
    (lt_trans e.hash.toNat_lt (by decide : 2 ^ 64 < 10 ^ 20))
  have htext : (passwordText e).take 63 = passwordText e := by
    refine take_of_length_le ?_
    simp only [passwordText, length_append, length_cons, length_nil]
    omega
  have hfirst : parseU64 0 (passwordText e) =
      (e.salt.toNat, 58 :: (decimal e.hash.toNat ++ [10])) :=
    parseU64_decimal e.salt.toNat_lt fun b hb => .inl (Option.some.inj hb).symm
  have hsecond : parseU64 0 (decimal e.hash.toNat ++ [10]) = (e.hash.toNat, [10]) :=
    parseU64_decimal e.hash.toNat_lt fun b hb => .inr (Option.some.inj hb).symm
  simp only [loadPassword, h, htext, hfirst, hsecond, UInt64.ofNat_toNat]

theorem lines_append {l : List UInt8} (h : ∀ b ∈ l, b ≠ 10 ∧ b ≠ 0) (rest : List UInt8) :
    lines (l ++ 10 :: rest) = l :: lines rest := by
  induction l with
  | nil => rfl
  | cons b bs ih =>
    obtain ⟨hb, hbs⟩ := forall_mem_cons.mp h
    rw [cons_append, lines, if_neg (by simp [hb.1, hb.2]), ih hbs]

/-- A line of the list has no newline or NUL inside. -/
lemma userLine_plain (h : e.Ok) (hshell : 10 ∉ e.shell) : ∀ b ∈ userLine e, b ≠ 10 ∧ b ≠ 0 := by
  intro b hb
  have hdigit : ∀ v, b ∈ decimal v → b ≠ 10 ∧ b ≠ 0 := by
    intro v hv
    have := decimal_digit hv
    constructor <;> rintro rfl <;> revert this <;> decide
  simp only [userLine, mem_append, mem_cons] at hb
  rcases hb with hb | rfl | hb | rfl | hb | hb
  · exact (h.name_plain b hb).2
  · decide
  · exact hdigit _ hb
  · decide
  · exact hdigit _ hb
  · split at hb
    · cases hb
    · rcases mem_cons.mp hb with rfl | hb
      · decide
      · exact ⟨fun h10 => hshell (h10 ▸ hb), fun h0 => h.shell_nul (h0 ▸ hb)⟩

lemma length_userLine_le (h : e.Ok) : (userLine e).length ≤ 117 := by
  have hname := h.name_le
  have hshell := h.shell_le
  have huid := length_decimal_le (k := 10) (by decide)
    (lt_trans e.uid.toNat_lt (by decide : 2 ^ 32 < 10 ^ 10))
  have hroles := length_decimal_le (k := 10) (by decide)
    (lt_trans e.roles.toNat_lt (by decide : 2 ^ 32 < 10 ^ 10))
  have hlast : (if e.shell = [] then [] else 58 :: e.shell).length ≤ 64 := by
    split
    · exact zero_le _
    · rw [length_cons]
      exact succ_le_succ hshell
  simp only [nameMax] at hname
  simp only [userLine, length_append, length_cons]
  omega

lemma lines_saveUserList (h : ∀ e ∈ users, e.Ok ∧ 10 ∉ e.shell) :
    lines (saveUserList users) = users.map userLine ++ [[]] := by
  induction users with
  | nil => rfl
  | cons e es ih =>
    obtain ⟨⟨hok, hshell⟩, hes⟩ := forall_mem_cons.mp h
    rw [saveUserList, flatMap_cons, append_assoc, singleton_append,
      lines_append (userLine_plain hok hshell)]
    exact congrArg (userLine e :: ·) (ih hes)

lemma length_saveUserList_le (h : ∀ e ∈ users, e.Ok) :
    (saveUserList users).length ≤ 118 * users.length := by
  induction users with
  | nil => exact zero_le _
  | cons e es ih =>
    obtain ⟨he, hes⟩ := forall_mem_cons.mp h
    have hline := length_userLine_le he
    have hrest := ih hes
    rw [saveUserList] at hrest
    rw [saveUserList, flatMap_cons, length_append, length_append, length_singleton, length_cons]
    omega

/-- The lines of users fill the table with them. -/
lemma foldl_addLine {es : List User} (acc : List User) (n : UInt32)
    (h : ∀ e ∈ es, e.Ok ∧ 10 ∉ e.shell ∧ disk.password e.name = some (passwordText e))
    (hroom : acc.length + es.length ≤ wMaxUsers) :
    ((es.map userLine).foldl (addLine disk) (acc, n)).1 = acc ++ es := by
  induction es generalizing acc n with
  | nil => exact (append_nil acc).symm
  | cons e es ih =>
    obtain ⟨⟨hok, hshell, hpassword⟩, hes⟩ := forall_mem_cons.mp h
    rw [length_cons] at hroom
    rw [map_cons, foldl_cons]
    simp only [addLine, parseEntry_userLine hok hshell, loadPassword_eq hpassword]
    rw [if_pos (by omega), ih _ _ hes (by simp; omega), append_assoc, singleton_append]

end Text

/-! ## Reloading -/

/-- What holds of table and files between calls. -/
structure Sound (s : UserDb) : Prop where
  /-- Every user is in order. -/
  users : ∀ e ∈ s.users, e.Ok
  /-- No name twice. -/
  names : (s.users.map User.name).Nodup
  /-- The table is not overfull. -/
  count : s.users.length ≤ wMaxUsers
  /-- There is a user with uid 0. -/
  root : ∃ e ∈ s.users, e.uid = 0
  /-- The list on disk is that of the table. -/
  list : s.disk.list = saveUserList s.users
  /-- Every user has the password file of the table. -/
  passwords : ∀ e ∈ s.users, s.disk.password e.name = some (passwordText e)

variable {e : User}

/-- No line of the list gives a shell with a newline. -/
lemma parseEntry_shell {line : List UInt8} (h : parseEntry line = some e) : 10 ∉ e.shell := by
  simp only [parseEntry] at h
  split at h
  · split at h
    · cases h
    split at h
    · cases h
      split
      · intro hmem
        have := mem_takeWhile_imp (mem_of_mem_take hmem)
        simp at this
      · exact not_mem_nil
    · cases h
  · cases h

lemma loadPassword_shell (disk : Disk) (e : User) : (loadPassword disk e).shell = e.shell := by
  rw [loadPassword]
  split <;> rfl

lemma foldl_addLine_shell (disk : Disk) (ls : List (List UInt8)) {t : List User × UInt32}
    (h : ∀ e ∈ t.1, 10 ∉ e.shell) : ∀ e ∈ (ls.foldl (addLine disk) t).1, 10 ∉ e.shell := by
  induction ls generalizing t with
  | nil => exact h
  | cons l ls ih =>
    refine ih ?_
    rw [addLine]
    split
    next => exact h
    next e he =>
      split
      · refine forall_mem_append.mpr ⟨h, forall_mem_singleton.mpr ?_⟩
        rw [loadPassword_shell]
        exact parseEntry_shell he
      · exact h

/-- A reboot never finds a shell with a newline. -/
lemma userInit_shell (disk : Disk) (salt : UInt64) :
    ∀ e ∈ (userInit disk salt).users, 10 ∉ e.shell := by
  have hread := foldl_addLine_shell disk
    ((lines (disk.list.take 4095)).filter (· ≠ [])) (t := ([], 1)) (by simp)
  rw [userInit]
  generalize ((lines (disk.list.take 4095)).filter (· ≠ [])).foldl (addLine disk) ([], 1) = t
    at hread ⊢
  split
  · exact hread
  intro e he
  rcases mem_cons.mp he with rfl | he
  · cases hhead : t.1.head? with
    | none => exact not_mem_nil
    | some first => exact hread first (mem_of_mem_head? hhead)
  · exact hread e (mem_of_mem_tail he)

/-- A reboot finds the users of the table if and only if none of their shells has a newline. -/
lemma Sound.userInit_users_iff {s : UserDb} (h : Sound s) (salt : UInt64) :
    (userInit s.disk salt).users = s.users ↔ ∀ e ∈ s.users, 10 ∉ e.shell := by
  constructor
  · intro heq e he
    exact userInit_shell s.disk salt e (heq ▸ he)
  intro hshells
  have hlen := length_saveUserList_le h.users
  have hcount := h.count
  simp only [wMaxUsers] at hcount
  have hlines : (lines (s.disk.list.take 4095)).filter (· ≠ []) = s.users.map userLine := by
    rw [h.list, take_of_length_le (by omega),
      lines_saveUserList fun e he => ⟨h.users e he, hshells e he⟩, filter_append]
    rw [filter_eq_self.mpr]
    · simp
    · intro l hl
      obtain ⟨e, -, rfl⟩ := mem_map.mp hl
      simp [userLine]
  have htable := foldl_addLine [] 1
    (fun e he => ⟨h.users e he, hshells e he, h.passwords e he⟩)
    (by simpa using h.count)
  rw [nil_append] at htable
  obtain ⟨r, hr, huid⟩ := h.root
  have hroot : s.users.any (·.uid == 0) = true := any_eq_true.mpr ⟨r, hr, by simp [huid]⟩
  simp only [userInit, hlines, htable, hroot, if_true]

/-! ## Calls keep table and files together -/

namespace UserDb

variable {name : List UInt8}

/-- With names that occur once, changing the first entry changes all with the name. -/
lemma setFirst_eq_map (f : User → User) {us : List User} (h : (us.map User.name).Nodup) :
    setFirst name f us = us.map fun e => if e.name = name then f e else e := by
  induction us with
  | nil => rfl
  | cons e es ih =>
    rw [map_cons, nodup_cons] at h
    rw [setFirst, map_cons]
    by_cases he : e.name = name
    · rw [if_pos he, if_pos he]
      congr 1
      have hkeep : ∀ x ∈ es, (if x.name = name then f x else x) = id x := by
        intro x hx
        exact if_neg fun hx' => h.1 (mem_map.mpr ⟨x, hx, hx'.trans he.symm⟩)
      rw [map_congr_left hkeep, map_id]
    · rw [if_neg he, if_neg he, ih h.2]

variable {s : UserDb}

lemma eq_of_findByName (h : Sound s) {x : User} (he : s.findByName name = some e)
    (hx : x ∈ s.users) (hname : x.name = name) : x = e := by
  have hfound : e.name = name := by simpa using find?_some he
  exact inj_on_of_nodup_map h.names hx (mem_of_find?_eq_some he) (hname.trans hfound.symm)

variable {f : User → User}

/-- The entries after a change of those with one name. -/
lemma mem_setFirst (h : Sound s) {x : User} (hx : x ∈ setFirst name f s.users) :
    ∃ e ∈ s.users, x = if e.name = name then f e else e := by
  rw [setFirst_eq_map f h.names] at hx
  obtain ⟨e, he, rfl⟩ := mem_map.mp hx
  exact ⟨e, he, rfl⟩

/-- A change of an entry that keeps its name and uid keeps all that is not about files. -/
lemma setFirst_spec (h : Sound s) (name : List UInt8) (hname : ∀ e, (f e).name = e.name)
    (huid : ∀ e, (f e).uid = e.uid) (hok : ∀ e ∈ s.users, (f e).Ok) :
    (∀ e ∈ setFirst name f s.users, e.Ok) ∧ ((setFirst name f s.users).map User.name).Nodup ∧
      (setFirst name f s.users).length ≤ wMaxUsers ∧ ∃ e ∈ setFirst name f s.users, e.uid = 0 := by
  refine ⟨fun x hx => ?_, ?_, ?_, ?_⟩
  · obtain ⟨e, he, rfl⟩ := mem_setFirst h hx
    split
    · exact hok e he
    · exact h.users e he
  · rw [setFirst_eq_map f h.names, map_map]
    convert h.names using 2
    funext e
    rw [Function.comp_apply]
    split
    · exact hname e
    · rfl
  · rw [setFirst_eq_map f h.names, length_map]
    exact h.count
  · obtain ⟨r, hr, hr0⟩ := h.root
    refine ⟨if r.name = name then f r else r, ?_, ?_⟩
    · rw [setFirst_eq_map f h.names]
      exact mem_map.mpr ⟨r, hr, rfl⟩
    · split
      · rw [huid, hr0]
      · exact hr0

/-- A change that the password file does not show. -/
lemma sound_change (h : Sound s) (hname : ∀ e, (f e).name = e.name)
    (huid : ∀ e, (f e).uid = e.uid) (hpassword : ∀ e, passwordText (f e) = passwordText e)
    (hok : ∀ e ∈ s.users, (f e).Ok) :
    Sound (s.change name f) := by
  obtain ⟨husers, hnames, hcount, hroot⟩ := setFirst_spec h name hname huid hok
  refine ⟨husers, hnames, hcount, hroot, rfl, fun x hx => ?_⟩
  obtain ⟨e, he, rfl⟩ := mem_setFirst h hx
  split
  · rw [hname, hpassword]
    exact h.passwords e he
  · exact h.passwords e he

section Keyed

variable (password : List UInt8) (salt : UInt64)

lemma keyed_ok (h : e.Ok) : (keyed password salt e).Ok := by
  rw [keyed]
  split <;> exact { h with }

variable (e : User)

lemma keyed_name : (keyed password salt e).name = e.name := by
  rw [keyed]
  split <;> rfl

lemma keyed_uid : (keyed password salt e).uid = e.uid := by
  rw [keyed]
  split <;> rfl

lemma userLine_keyed : userLine (keyed password salt e) = userLine e := by
  rw [keyed]
  split <;> rfl

end Keyed

/-- A new password goes to table and file. -/
lemma sound_setPassword (h : Sound s) (he : s.findByName name = some e) (new : List UInt8)
    (salt : UInt64) :
    Sound { s with
      users := setFirst name (keyed new salt) s.users
      disk := s.disk.setPassword (keyed new salt e) } := by
  have hfound : e.name = name := by simpa using find?_some he
  obtain ⟨husers, hnames, hcount, hroot⟩ := setFirst_spec h name (keyed_name new salt)
    (keyed_uid new salt) fun x hx => keyed_ok new salt (h.users x hx)
  refine ⟨husers, hnames, hcount, hroot, ?_, fun x hx => ?_⟩
  · -- the list shows neither salt nor hash
    change s.disk.list = _
    rw [h.list, saveUserList, saveUserList, setFirst_eq_map _ h.names, flatMap_map]
    congr 1
    funext x
    split
    · rw [userLine_keyed]
    · rfl
  · change (if x.name = _ then _ else _) = _
    obtain ⟨y, hy, rfl⟩ := mem_setFirst h hx
    rw [keyed_name]
    by_cases hname : y.name = name
    · obtain rfl := eq_of_findByName h he hy hname
      rw [if_pos hname, keyed_name, if_pos rfl]
    · rw [if_neg hname, if_neg (fun heq => hname (heq.trans hfound))]
      exact h.passwords y hy

/-- Adding a user keeps table and files together. -/
lemma sound_add (h : Sound s) (actor : UInt32) (name password : CString) (roles : UInt32)
    (salt : UInt64) : Sound (s.add actor name.1 password.1 roles salt).1 := by
  rw [add]
  split
  · exact h
  split
  · exact h
  next hlen =>
  split
  · exact h
  next hbytes =>
  split
  · exact h
  next hnew =>
  split
  · exact h
  next hroom =>
  split
  next hstored =>
    have hok : (keyed password.1 salt ⟨name.1, s.nextUid, roles, 0, 0, []⟩).Ok := by
      refine keyed_ok _ _ ⟨fun hnil => hlen (.inl hnil), fun b hb => ?_, hstored, zero_le _,
        not_mem_nil⟩
      refine ⟨?_, ?_, ?_⟩ <;> rintro rfl
      · exact hbytes (.inr (.inl hb))
      · exact hbytes (.inr (.inr (.inl hb)))
      · exact name.2 hb
    have hname : (keyed password.1 salt ⟨name.1, s.nextUid, roles, 0, 0, []⟩).name = name.1 :=
      keyed_name ..
    generalize keyed password.1 salt ⟨name.1, s.nextUid, roles, 0, 0, []⟩ = e at hok hname ⊢
    have hother : ∀ x ∈ s.users, x.name ≠ e.name := by
      intro x hx heq
      refine hnew (find?_isSome.mpr ⟨x, hx, ?_⟩)
      simp [heq, hname]
    refine ⟨?_, ?_, ?_, ?_, rfl, ?_⟩
    · exact forall_mem_append.mpr ⟨h.users, forall_mem_singleton.mpr hok⟩
    · rw [map_append, nodup_append]
      refine ⟨h.names, nodup_singleton _, ?_⟩
      intro a ha b hb
      obtain ⟨x, hx, rfl⟩ := mem_map.mp ha
      rw [map_singleton, mem_singleton] at hb
      rw [hb]
      exact hother x hx
    · rw [length_append, length_singleton]
      exact Nat.lt_of_not_le hroom
    · obtain ⟨r, hr, hr0⟩ := h.root
      exact ⟨r, mem_append_left _ hr, hr0⟩
    · intro x hx
      change (if x.name = e.name then _ else s.disk.password x.name) = _
      rcases mem_append.mp hx with hx | hx
      · rw [if_neg (hother x hx)]
        exact h.passwords x hx
      · rw [mem_singleton.mp hx, if_pos rfl]
  next => exact ⟨h.users, h.names, h.count, h.root, rfl, h.passwords⟩

/-- Every call keeps table and files together. -/
lemma sound_exec (h : Sound s) (call : UserCall) : Sound (s.exec call).1 := by
  cases call with
  | add actor name password roles salt => exact sound_add h actor name password roles salt
  | setRoles actor name roles =>
    rw [exec, setRoles]
    split
    · exact h
    split
    · exact h
    split
    · exact h
    exact sound_change h (fun _ => rfl) (fun _ => rfl) (fun _ => rfl) fun e he =>
      { h.users e he with }
  | setShell actor name shell =>
    rw [exec, setShell]
    split
    · exact h
    split
    · exact h
    split
    · exact h
    next hlen =>
    exact sound_change h (fun _ => rfl) (fun _ => rfl) (fun _ => rfl) fun e he =>
      { h.users e he with shell_le := Nat.le_of_not_lt hlen, shell_nul := shell.2 }
  | setPassword actor name old new salt =>
    rw [exec, setPassword]
    split
    · exact h
    next e he =>
    split
    · exact h
    split
    · exact h
    exact sound_setPassword h he new.1 salt

end UserDb

/-- The first start of a machine, with nothing on disk. -/
def boot (salt : UInt64) : UserDb := userInit ⟨[], fun _ => none⟩ salt

/-- The root that is made then. -/
def firstRoot (salt : UInt64) : User :=
  ⟨ascii "root", 0, 0, salt, hashPassword salt (ascii "1234"), []⟩

lemma boot_eq (salt : UInt64) : boot salt = ⟨[firstRoot salt], 1,
    Disk.setPassword ⟨saveUserList [firstRoot salt], fun _ => none⟩ (firstRoot salt)⟩ := rfl

lemma root_plain : ∀ b ∈ ascii "root", b ≠ 58 ∧ b ≠ 10 ∧ b ≠ 0 := by decide +kernel

lemma root_storable : storable (ascii "root") = true := by decide

lemma sound_boot (salt : UInt64) : Sound (boot salt) := by
  have hok : (firstRoot salt).Ok :=
    ⟨cons_ne_nil _ _, root_plain, root_storable, zero_le _, not_mem_nil⟩
  rw [boot_eq]
  refine ⟨fun e he => ?_, nodup_singleton _, succ_le_succ (zero_le _),
    ⟨_, mem_singleton_self _, rfl⟩, rfl, fun e he => ?_⟩
  · rw [mem_singleton.mp he]
    exact hok
  rw [mem_singleton.mp he]
  change (if (firstRoot salt).name = (firstRoot salt).name then
    some (passwordText (firstRoot salt)) else none) = _
  exact if_pos rfl

/-- After any calls by anyone, a reboot finds the same users if and only if no user's shell has a
newline. -/
theorem reload_same_iff {salt : UInt64} {ls : List (UserCall × Except Errno ℕ)} {s : UserDb}
    (h : Run (execStep (fun _ _ => True) UserDb.exec) (boot salt) ls s) (salt' : UInt64) :
    (userInit s.disk salt').users = s.users ↔ ∀ e ∈ s.users, 10 ∉ e.shell := by
  refine Sound.userInit_users_iff ?_ salt'
  refine Run.invariant (fun s l s' hs hstep => ?_) h (sound_boot salt)
  obtain ⟨-, hexec⟩ := hstep
  have hnext := UserDb.sound_exec hs l.1
  rwa [hexec] at hnext

lemma nul_notMem_eve : (0 : UInt8) ∉ ascii "eve" := by decide

lemma nul_notMem_plain : (0 : UInt8) ∉ ascii "/app/sh" := by decide

lemma nul_notMem_newline : (0 : UInt8) ∉ ascii "x\nm:0:0" := by decide

/-- Root adds a user without a password or a role, who then sets a shell. -/
def addEve (shell : CString) : List UserCall :=
  [.add 0 ⟨ascii "eve", nul_notMem_eve⟩ ⟨[], List.not_mem_nil⟩ 0 5,
    .setShell 1 ⟨ascii "eve", nul_notMem_eve⟩ shell]

def afterPlain : UserDb := play UserDb.exec (boot 3) (addEve ⟨ascii "/app/sh", nul_notMem_plain⟩)

def afterNewline : UserDb :=
  play UserDb.exec (boot 3) (addEve ⟨ascii "x\nm:0:0", nul_notMem_newline⟩)

theorem plainShell_reloads : (userInit afterPlain.disk 7).users = afterPlain.users ↔
    ∀ e ∈ afterPlain.users, 10 ∉ e.shell := by
  have hlegal : Legal (fun _ _ => True) UserDb.exec (boot 3)
      (addEve ⟨ascii "/app/sh", nul_notMem_plain⟩) := ⟨trivial, trivial, trivial⟩
  exact reload_same_iff hlegal.run 7

/-- The shell has a newline, and after a reboot there is a user `m` with uid 0. -/
theorem newline_makes_root :
    (∃ e ∈ (userInit afterNewline.disk 7).users, e.name = ascii "m" ∧ e.uid = 0) ∧
      ∀ e ∈ afterNewline.users, e.name ≠ ascii "m" := by
  decide

/-! ## Saves that fail -/

namespace UserDb

/-- The table after a call whose saves of the list or of the password may fail, and whether it
returns a negative code. A failed save is reported, but only `user_add` takes its change back; it
returns the uid as an `int`. -/
def attempt (s : UserDb) (call : UserCall) (listFails passwordFails : Bool) : List User × Bool :=
  match s.exec call, call with
  | (s', .error _), _ => (s'.users, true)
  | (s', .ok uid), .add .. =>
    if listFails || passwordFails then (s.users, true) else (s'.users, 2147483648 ≤ uid)
  | (s', .ok _), .setPassword .. => (s'.users, passwordFails)
  | (s', .ok _), _ => (s'.users, listFails)

/-- A call that is refused leaves the table, and one that adds a user lengthens it. -/
lemma exec_users (s : UserDb) (call : UserCall) :
    match (s.exec call).2, call with
    | .error _, _ => (s.exec call).1.users = s.users
    | .ok uid, .add .. => (s.exec call).1.users ≠ s.users ∧ uid = s.nextUid.toNat
    | .ok _, _ => True := by
  cases call with
  | add actor name password roles salt =>
    simp only [exec, add]
    split_ifs <;> simp [keyed_uid]
  | setRoles actor name roles =>
    rw [exec, setRoles]
    grind
  | setShell actor name shell =>
    rw [exec, setShell]
    grind
  | setPassword actor name old new salt =>
    rw [exec, setPassword]
    grind

/-- A change of the first entry with a name shows in that entry. -/
lemma setFirst_eq_self_iff {name : List UInt8} {e : User} (f : User → User) {users : List User}
    (hfind : users.find? (·.name == name) = some e) :
    setFirst name f users = users ↔ f e = e := by
  induction users with
  | nil => cases hfind
  | cons e' es ih =>
    by_cases h : e'.name = name
    · obtain rfl : e' = e := by simpa [h] using hfind
      simp [setFirst, h]
    · simpa [setFirst, h] using ih (by simpa [h] using hfind)

/-- The call is refused, or it writes the values that are there. -/
def Idle (s : UserDb) : UserCall → Prop
  | .add actor name _ _ _ =>
    s.privileged actor = false ∨ (name.1 = [] ∨ wNameLen < name.1.length) ∨
      (47 ∈ name.1 ∨ 58 ∈ name.1 ∨ 10 ∈ name.1 ∨ 46 ∈ name.1) ∨ (s.findByName name.1).isSome ∨
      wMaxUsers ≤ s.users.length ∨ storable name.1 = false
  | .setRoles actor name roles =>
    s.privileged actor = false ∨ ∀ e ∈ s.findByName name.1, e.uid = 0 ∨ e.roles = roles
  | .setShell actor name shell => ∀ e ∈ s.findByName name.1,
    s.privileged actor = false ∧ e.uid ≠ actor ∨ wShellMax < shell.1.length ∨ e.shell = shell.1
  | .setPassword actor name old new salt => ∀ e ∈ s.findByName name.1,
    s.privileged actor = false ∧ e.uid ≠ actor ∨
      s.privileged actor = false ∧ e.hash ≠ 0 ∧ hashPassword e.salt old.1 ≠ e.hash ∨
      if new.1 = [] then e.salt = 0 ∧ e.hash = 0
      else e.salt = salt ∧ e.hash = hashPassword salt new.1

/-- These are the calls that leave the table as it is when all saves succeed. -/
lemma exec_users_eq_iff (s : UserDb) (call : UserCall) :
    (s.exec call).1.users = s.users ↔ s.Idle call := by
  cases call with
  | add actor name password roles salt =>
    simp only [exec, add, Idle]
    split_ifs <;> simp_all
  | setRoles actor name roles =>
    simp only [exec, setRoles, Idle]
    split_ifs with hp
    · exact iff_of_true rfl (.inl hp)
    cases hfind : s.findByName name.1 with
    | none => simp
    | some e =>
      simp only [Option.mem_some, forall_eq']
      split_ifs with h0
      · exact iff_of_true rfl (.inr (.inl h0))
      rw [or_iff_right hp, or_iff_right h0]
      refine (setFirst_eq_self_iff _ hfind).trans ⟨fun h => ?_, fun h => ?_⟩ <;> rw [← h]
  | setShell actor name shell =>
    simp only [exec, setShell, Idle]
    cases hfind : s.findByName name.1 with
    | none => simp
    | some e =>
      simp only [Option.mem_some, forall_eq']
      split_ifs with hp hlen
      · exact iff_of_true rfl (.inl hp)
      · exact iff_of_true rfl (.inr (.inl hlen))
      rw [or_iff_right hp, or_iff_right hlen]
      refine (setFirst_eq_self_iff _ hfind).trans ⟨fun h => ?_, fun h => ?_⟩ <;> rw [← h]
  | setPassword actor name old new salt =>
    simp only [exec, setPassword, Idle]
    cases hfind : s.findByName name.1 with
    | none => simp
    | some e =>
      simp only [Option.mem_some, forall_eq']
      generalize hkept : (if new.1 = [] then e.salt = 0 ∧ e.hash = 0
        else e.salt = salt ∧ e.hash = hashPassword salt new.1) = kept
      split_ifs with hp hold
      · exact iff_of_true rfl (.inl hp)
      · exact iff_of_true rfl (.inr (.inl hold))
      rw [or_iff_right hp, or_iff_right hold, ← hkept]
      refine (setFirst_eq_self_iff _ hfind).trans ?_
      rw [keyed]
      split_ifs <;>
        exact ⟨fun h => by rw [← h]; exact ⟨rfl, rfl⟩, fun h => User.ext rfl rfl rfl h.1.symm h.2.symm rfl⟩

/-- Whatever saves fail, a negative code means that the table is as before, if and only if the call
is refused, writes the values that are there, or adds a user whose uid is no negative `int`. -/
theorem failed_keeps_iff (s : UserDb) (call : UserCall) :
    (∀ listFails passwordFails, (s.attempt call listFails passwordFails).2 = true →
        (s.attempt call listFails passwordFails).1 = s.users) ↔
      s.Idle call ∨ (call matches .add ..) ∧ s.nextUid.toNat < 2147483648 := by
  rw [← exec_users_eq_iff]
  have husers := exec_users s call
  simp only [attempt]
  generalize s.exec call = r at *
  obtain ⟨s', err | uid⟩ := r
  · -- a refusal, whichever call it is
    simp [show s'.users = s.users from husers]
  cases call with
  | add actor name password roles salt =>
    obtain ⟨hne, rfl⟩ := husers
    simp [hne]
  | _ => simp

end UserDb

/-- Root makes the user an editor of users. -/
def promoteEve : UserCall := .setRoles 0 ⟨ascii "eve", nul_notMem_eve⟩ roleUsereditor

/-- The list cannot be saved and `user_set_roles` fails, but the user has the role. -/
theorem failed_save_promotes :
    (afterPlain.attempt promoteEve true false).2 = true ∧ afterPlain.privileged 1 = false ∧
      UserDb.privileged { afterPlain with users := (afterPlain.attempt promoteEve true false).1 }
        1 = true := by
  decide

end Wos.Users
