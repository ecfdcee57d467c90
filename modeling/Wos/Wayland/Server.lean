import Mathlib.Logic.Relation
import Wos.Base.Machine
import Wos.Wayland.Wire

/-!
# The Wayland server: resources and the dispatcher

`dispatch_client` turns a message into a call: the object the message is for gives the interface, the
interface's table gives the signature, the signature the arguments, and an object argument is looked
up among the client's objects. The tables are arbitrary here, as they are for the dispatcher.

## Main definitions

* `Resource`, `Message`: an object of a client, and a request of an interface's table;
* `dispatchMessage`: one turn of `dispatch_client`;
* `dispatchClient`, `serve`: all turns, and the reads of a client they follow;
* `Session.Takes`, `Reaches`: a request reaches a handler; the states in which one is looked for;
* `Outcome.Typed`, `NamesDeclared`: handlers see objects of the declared interface; the client names
  such objects.

## Main results

* `dispatchMessage_typed_iff`: the first holds exactly when the second does;
* `errors_final_iff`: when nothing is handled behind an error.
-/

namespace Wos.Wayland

/-- `struct wl_resource`. The `handle` stands for its address; `data` is its `user_data`. -/
structure Resource (ι δ : Type) where
  handle : ℕ
  client : ℕ
  id : ℕ
  interface : ι
  data : Option δ
  deriving DecidableEq, Repr

/-- `struct wl_message`; `types` is the run of entries its object and new-id arguments have. -/
structure Message (ι : Type) where
  signature : List Char
  types : ℕ → Option ι

/-- What a handler gets for one argument: an object, or the value as it was unpacked. -/
inductive Slot (ι δ : Type)
  | object (r : Option (Resource ι δ))
  | value (a : Arg)

/-- What becomes of a message: one of the four errors, or a call. -/
inductive Outcome (ι δ : Type)
  | invalidObject | invalidMethod | badBody | notImplemented
  | call (target : Resource ι δ) (m : Message ι) (slots : List (Slot ι δ))

section Dispatch

variable {ι δ : Type}

/-- `wl_client_get_object`. -/
def wlClientGetObject (objects : List (Resource ι δ)) (id : ℕ) : Option (Resource ι δ) :=
  objects.find? fun r => decide (r.id = id)

variable {objects : List (Resource ι δ)} {r : Resource ι δ}

lemma wlClientGetObject_mem {id : ℕ}
    (h : wlClientGetObject objects id = some r) : r ∈ objects ∧ r.id = id :=
  ⟨List.mem_of_find?_eq_some h, by simpa using List.find?_some h⟩

/-- The letters that stand for arguments. -/
def Message.letters (m : Message ι) : List Char := (signatureStart m.signature).filter (· ≠ '?')

/-- The interface declared for an argument: `types` has one entry for each object or new id. -/
def Message.declared (m : Message ι) (k : ℕ) : Option ι :=
  m.types ((m.letters.take k).countP fun l => decide (l = 'o' ∨ l = 'n'))

/-- One slot. An id of zero is `NULL`, and so is an id the client has no object for. -/
def slotOf (objects : List (Resource ι δ)) (letter : Char) (a : Arg) : Slot ι δ :=
  match a with
  | .word _ v =>
    if letter = 'o' then .object (if v = 0 then none else wlClientGetObject objects v)
    else .value a
  | a => .value a

/-- The slots of a call, eight at most. -/
def Message.slots (m : Message ι) (objects : List (Resource ι δ)) (args : List Arg) :
    List (Slot ι δ) :=
  (List.zipWith (slotOf objects) m.letters args).take 8

/-- One message of `dispatch_client`; `implemented` says which entries of a resource's implementation
are there. -/
def dispatchMessage (methods : ι → List (Message ι)) (implemented : Resource ι δ → ℕ → Bool)
    (objects : List (Resource ι δ)) (id opcode : ℕ) (body : Buf) (bodyLen : ℕ) (fds : List ℕ)
    (scratch : ℕ × ℕ) : Outcome ι δ :=
  match wlClientGetObject objects id with
  | none => .invalidObject
  | some target =>
    match (methods target.interface)[opcode]? with
    | none => .invalidMethod
    | some m =>
      let r := wlConnectionUnpack m.signature body bodyLen wlMaxArgs fds scratch
      if r.2 = false then .badBody
      else if implemented target opcode = false then .notImplemented
      else .call target m (m.slots objects r.1.args)

/-- Every object a handler is given is one of the client's, of the interface declared for it. -/
def Outcome.Typed (objects : List (Resource ι δ)) : Outcome ι δ → Prop
  | .call _ m slots => ∀ k r, slots[k]? = some (.object (some r)) →
      r ∈ objects ∧ ∀ i, m.declared k = some i → r.interface = i
  | _ => True

/-- Every id sent for an object argument is zero, unknown, or that of an object of the declared
interface. -/
def NamesDeclared (objects : List (Resource ι δ)) (m : Message ι) (args : List Arg) : Prop :=
  ∀ k p v r i, k < 8 → m.letters[k]? = some 'o' → args[k]? = some (.word p v) → v ≠ 0 →
    wlClientGetObject objects v = some r → m.declared k = some i → r.interface = i

lemma slotOf_eq_object_iff {letter : Char}
    {a : Arg} : slotOf objects letter a = .object (some r) ↔
      letter = 'o' ∧ ∃ p v, a = .word p v ∧ v ≠ 0 ∧ wlClientGetObject objects v = some r := by
  constructor
  · intro h
    unfold slotOf at h
    split at h
    · rename_i p v
      split_ifs at h with ho hv
      · cases h
      · exact ⟨ho, p, v, rfl, hv, by injection h⟩
    · cases h
  · rintro ⟨rfl, p, v, rfl, hv, hr⟩
    simp [slotOf, hv, hr]

/-- The handler gets objects of the declared interface exactly if the message names such. -/
lemma slots_typed_iff (m : Message ι) (objects : List (Resource ι δ)) (args : List Arg)
    (target : Resource ι δ) :
    (Outcome.call target m (m.slots objects args)).Typed objects ↔ NamesDeclared objects m args := by
  have hslot : ∀ k r, (m.slots objects args)[k]? = some (.object (some r)) ↔ k < 8 ∧
      ∃ l a, m.letters[k]? = some l ∧ args[k]? = some a ∧
        slotOf objects l a = .object (some r) := by
    intro k r
    rw [Message.slots, List.getElem?_take]
    split_ifs with hk
    · simp [hk, List.getElem?_zipWith_eq_some]
    · simp [hk]
  constructor
  · intro h k p v r i hk hl ha hv hr hi
    refine (h k r ((hslot k r).mpr ⟨hk, 'o', .word p v, hl, ha, ?_⟩)).2 i hi
    exact slotOf_eq_object_iff.mpr ⟨rfl, p, v, rfl, hv, hr⟩
  · intro h k r hs
    obtain ⟨hk, l, a, hl, ha, hobj⟩ := (hslot k r).mp hs
    obtain ⟨rfl, p, v, rfl, hv, hr⟩ := slotOf_eq_object_iff.mp hobj
    exact ⟨(wlClientGetObject_mem hr).1, fun i hi => h k p v r i hk hl ha hv hr hi⟩

/-- The dispatcher checks nothing: a handler sees objects of the declared interfaces exactly when
the client named such objects. -/
theorem dispatchMessage_typed_iff (methods : ι → List (Message ι))
    (implemented : Resource ι δ → ℕ → Bool) (objects : List (Resource ι δ)) (id opcode : ℕ)
    (body : Buf) (bodyLen : ℕ) (fds : List ℕ) (scratch : ℕ × ℕ) :
    (dispatchMessage methods implemented objects id opcode body bodyLen fds scratch).Typed objects ↔
      ∀ target, wlClientGetObject objects id = some target →
        ∀ m, (methods target.interface)[opcode]? = some m → implemented target opcode = true →
        (wlConnectionUnpack m.signature body bodyLen wlMaxArgs fds scratch).2 = true →
        NamesDeclared objects m
          (wlConnectionUnpack m.signature body bodyLen wlMaxArgs fds scratch).1.args := by
  unfold dispatchMessage
  cases hobj : wlClientGetObject objects id with
  | none => simp [Outcome.Typed]
  | some target =>
  simp only [Option.some.injEq, forall_eq']
  cases hm : (methods target.interface)[opcode]? with
  | none => simp [Outcome.Typed]
  | some m =>
    simp only [Option.some.injEq, forall_eq']
    split_ifs with hbad himpl
    · simp [Outcome.Typed, hbad]
    · simp [Outcome.Typed, himpl]
    · rw [slots_typed_iff]
      exact ⟨fun h _ _ => h, fun h => h (by simpa using himpl) (by simpa using hbad)⟩

end Dispatch

/-! ## Errors -/

/-- What `wl_connection_next` finds at the front of the input. -/
inductive Next
  | wait
  | broken
  | view (size : ℕ)
  deriving DecidableEq, Repr

/-- `wl_connection_next`. The size is the upper half of the second word. -/
def wlConnectionNext (input : List UInt8) : Next :=
  let size := (input.getD 6 0).toNat + 256 * (input.getD 7 0).toNat
  if input.length < 8 then .wait
  else if size < 8 ∨ wlBufferSize < size then .broken
  else if input.length < size then .wait
  else .view size

/-- One client: the bytes not consumed, `in_use` and `broken`. What else requests change is in
`server`. -/
structure Session (σ : Type) where
  server : σ
  input : List UInt8
  inUse : Bool
  broken : Bool

/-- What a handler leaves, and whether it has called `wl_resource_post_error`. -/
structure Handled (σ : Type) where
  server : σ
  posted : Bool
  inUse : Bool

section Errors

open List Relation

variable {σ : Type} (request : σ → List UInt8 → Option (Handled σ))

/-- The loop of `dispatch_client`: the requests that reach a handler, each with whether the handler
has posted an error. `request` is what becomes of one, without a value if it is one of the errors of
`dispatchMessage`. -/
def dispatchClient : ℕ → Session σ → List (List UInt8 × Bool) × Session σ
  | 0, s => ([], s)
  | n + 1, s =>
    match s.inUse, wlConnectionNext s.input with
    | true, .view size =>
      match request s.server (s.input.take size) with
      | none => ([], { s with broken := true })
      | some h =>
        -- `broken` is not looked at before the next request
        let r := dispatchClient n ⟨h.server, s.input.drop size, h.inUse, s.broken || h.posted⟩
        ((s.input.take size, h.posted) :: r.1, r.2)
    | true, .broken => ([], { s with broken := true })
    | _, _ => ([], s)

/-- The turns of `wl_display_handle` in which the client can be read, with the bytes of each; none
are the end or an error. -/
def serve : List (List UInt8) → Session σ → List (List (List UInt8 × Bool))
  | [], _ => []
  | bytes :: later, s =>
    if s.inUse = false then []
    else
      let r := if s.broken = true ∨ wlBufferSize ≤ s.input.length ∨ bytes = [] then
          ([], { s with broken := true })
        else
          -- a request has eight bytes at least
          dispatchClient request (s.input.length + bytes.length) { s with input := s.input ++ bytes }
      r.1 :: serve later { r.2 with inUse := r.2.inUse && !r.2.broken }

/-- The client is in use, and its next request is complete and reaches a handler, which leaves `h`. -/
def Session.Takes (s : Session σ) (size : ℕ) (h : Handled σ) : Prop :=
  s.inUse = true ∧ wlConnectionNext s.input = .view size ∧
    request s.server (s.input.take size) = some h

/-- The client behind a request. -/
def Session.taken (s : Session σ) (size : ℕ) (h : Handled σ) : Session σ :=
  ⟨h.server, s.input.drop size, h.inUse, s.broken || h.posted⟩

/-- One turn of the loop of `dispatch_client`. -/
def Turn (s t : Session σ) : Prop := ∃ size h, s.Takes request size h ∧ t = s.taken size h

/-- `wl_connection_read` reads these bytes. -/
def Session.Reads (s : Session σ) (bytes : List UInt8) : Prop :=
  s.inUse = true ∧ ¬ (s.broken = true ∨ wlBufferSize ≤ s.input.length ∨ bytes = [])

/-- The client when the bytes are in its buffer. -/
def Session.read (s : Session σ) (bytes : List UInt8) : Session σ :=
  { s with input := s.input ++ bytes }

/-- The loop ends without an error, and waits for bytes. -/
def Session.Waits (s : Session σ) : Prop :=
  s.inUse = true ∧ s.broken = false ∧ wlConnectionNext s.input = .wait

/-- The states in which `dispatch_client` looks for a request, when a client sends these bytes. -/
inductive Reaches : List (List UInt8) → Session σ → Session σ → Prop
  | here {bytes later s t} (hread : s.Reads bytes)
    (hturns : ReflTransGen (Turn request) (s.read bytes) t) : Reaches (bytes :: later) s t
  | later {bytes later s t u} (hread : s.Reads bytes)
    (hturns : ReflTransGen (Turn request) (s.read bytes) t) (hwaits : t.Waits)
    (hlater : Reaches later t u) : Reaches (bytes :: later) s u

/-- No request reaches a handler behind one whose handler has posted an error. -/
def Session.Final (s : Session σ) : Prop :=
  ∀ size h, s.Takes request size h → h.posted = true →
    ∀ size' h', ¬ (s.taken size h).Takes request size' h'

variable {request}

/-- An error that a handler has posted breaks the connection. -/
lemma dispatchClient_broken {n : ℕ} {s : Session σ}
    (h : s.broken = true ∨ ∃ a ∈ (dispatchClient request n s).1, a.2 = true) :
    (dispatchClient request n s).2.broken = true := by
  induction n generalizing s with
  | zero => simpa [dispatchClient] using h
  | succ n ih =>
    unfold dispatchClient at h ⊢
    split at h <;> try split at h
    all_goals simp_all
    refine ih ?_
    simpa [or_assoc] using h

variable (request)

/-- A turn in which an error is posted is the last one with requests. -/
lemma serve_pairwise (chunks : List (List UInt8)) (s : Session σ) :
    (serve request chunks s).Pairwise fun a b => (∃ x ∈ a, x.2 = true) → b = [] := by
  induction chunks generalizing s with
  | nil => exact .nil
  | cons bytes later ih =>
    rw [serve]
    split_ifs with huse hread
    · exact .nil
    · exact pairwise_cons.mpr ⟨fun _ _ h => by simp at h, ih _⟩
    · refine pairwise_cons.mpr ⟨fun b hb h => ?_, ih _⟩
      rw [dispatchClient_broken (Or.inr h), Bool.not_true, Bool.and_false] at hb
      cases later <;> cases hb

variable {request}

lemma wlConnectionNext_view {input : List UInt8} {size : ℕ} (h : wlConnectionNext input = .view size) :
    8 ≤ size ∧ size ≤ input.length := by
  simp only [wlConnectionNext] at h
  split_ifs at h
  cases h
  omega

lemma Session.Takes.unique {s : Session σ} {size size' : ℕ} {h h' : Handled σ}
    (ht : s.Takes request size h) (ht' : s.Takes request size' h') : size = size' ∧ h = h' := by
  obtain ⟨-, hview, hreq⟩ := ht
  obtain ⟨-, hview', hreq'⟩ := ht'
  obtain rfl : size = size' := Next.view.inj (hview.symm.trans hview')
  exact ⟨rfl, Option.some.inj (hreq.symm.trans hreq')⟩

lemma dispatchClient_of_takes {s : Session σ} {size : ℕ} {h : Handled σ} (n : ℕ)
    (ht : s.Takes request size h) : dispatchClient request (n + 1) s =
      ((s.input.take size, h.posted) :: (dispatchClient request n (s.taken size h)).1,
        (dispatchClient request n (s.taken size h)).2) := by
  obtain ⟨huse, hview, hreq⟩ := ht
  simp only [dispatchClient, huse, hview, hreq]
  rfl

/-- Without a further request the loop ends, with an error unless it waits or the client is gone. -/
lemma dispatchClient_of_not_takes {n : ℕ} {s : Session σ} (hn : s.input.length ≤ n)
    (ht : ∀ size h, ¬ s.Takes request size h) :
    (dispatchClient request n s).1 = [] ∧ (s.Waits → (dispatchClient request n s).2 = s) ∧
      ((dispatchClient request n s).2.inUse = true →
        (dispatchClient request n s).2.broken = false →
        s.Waits ∧ (dispatchClient request n s).2 = s) := by
  cases n with
  | zero =>
    have hnil : s.input = [] := length_eq_zero_iff.mp (by omega)
    exact ⟨rfl, fun _ => rfl, fun huse hok => ⟨⟨huse, hok, by rw [hnil]; rfl⟩, rfl⟩⟩
  | succ n =>
    rw [dispatchClient]
    split
    · rename_i size huse hview
      split
      · rename_i hreq
        simp [Session.Waits, hview]
      · rename_i h hreq
        exact absurd ⟨huse, hview, hreq⟩ (ht size h)
    · rename_i huse hview
      simp [Session.Waits, hview]
    · rename_i hview hbroken
      refine ⟨rfl, fun _ => rfl, fun huse hok => ⟨⟨huse, hok, ?_⟩, rfl⟩⟩
      cases hnext : wlConnectionNext s.input with
      | wait => rfl
      | broken => exact absurd hnext (hbroken huse)
      | view size => exact absurd hnext (hview size huse)

/-- The states within one call: the first, and those behind its first request. -/
lemma turns_iff {s t : Session σ} : ReflTransGen (Turn request) s t ↔
    s = t ∨ ∃ size h, s.Takes request size h ∧ ReflTransGen (Turn request) (s.taken size h) t := by
  rw [ReflTransGen.cases_head_iff]
  refine or_congr_right ⟨?_, ?_⟩
  · rintro ⟨_, ⟨size, h, ht, rfl⟩, hrest⟩
    exact ⟨size, h, ht, hrest⟩
  · rintro ⟨size, h, ht, hrest⟩
    exact ⟨_, ⟨size, h, ht, rfl⟩, hrest⟩

lemma turns_iff_of_takes {s t : Session σ} {size : ℕ} {h : Handled σ} (ht : s.Takes request size h) :
    ReflTransGen (Turn request) s t ↔
      s = t ∨ ReflTransGen (Turn request) (s.taken size h) t := by
  rw [turns_iff]
  refine or_congr_right ⟨?_, fun hrest => ⟨size, h, ht, hrest⟩⟩
  rintro ⟨size', h', ht', hrest⟩
  obtain ⟨rfl, rfl⟩ := ht.unique ht'
  exact hrest

/-- The loop when no request can be taken. -/
lemma dispatchClient_spec_of_not_takes {n : ℕ} {s : Session σ} (hn : s.input.length ≤ n)
    (ht : ∀ size h, ¬ s.Takes request size h) :
    ((dispatchClient request n s).1.Pairwise (fun a _ => a.2 = false) ↔
        ∀ t, ReflTransGen (Turn request) s t → t.Final request) ∧
      ∀ t, ReflTransGen (Turn request) s t ∧ t.Waits ↔ (dispatchClient request n s).2 = t ∧
        t.inUse = true ∧ t.broken = false := by
  obtain ⟨hnil, hwaits, hends⟩ := dispatchClient_of_not_takes hn ht
  have honly {t : Session σ} : ReflTransGen (Turn request) s t ↔ s = t := by
    rw [turns_iff, or_iff_left]
    rintro ⟨size, h, ht', -⟩
    exact ht size h ht'
  constructor
  · simp only [hnil, Pairwise.nil, true_iff, honly, forall_eq']
    exact fun size h ht' => absurd ht' (ht size h)
  · intro t
    rw [honly]
    constructor
    · rintro ⟨rfl, hw⟩
      exact ⟨hwaits hw, hw.1, hw.2.1⟩
    · rintro ⟨heq, huse, hok⟩
      rw [← heq] at huse hok
      obtain ⟨hw, hsame⟩ := hends huse hok
      rw [← heq, hsame]
      exact ⟨rfl, hw⟩

variable (request)

lemma dispatchClient_eq_nil_iff {n : ℕ} {s : Session σ} (hn : s.input.length ≤ n) :
    (dispatchClient request n s).1 = [] ↔ ∀ size h, ¬ s.Takes request size h := by
  refine ⟨fun hnil size h ht => ?_, fun ht => (dispatchClient_of_not_takes hn ht).1⟩
  have hsize := wlConnectionNext_view ht.2.1
  obtain ⟨n, rfl⟩ : ∃ m, n = m + 1 := Nat.exists_eq_succ_of_ne_zero (by omega)
  rw [dispatchClient_of_takes n ht] at hnil
  cases hnil

/-- One call of `dispatch_client`: no handler is called behind an error if and only if this holds in
each of its states, and without an error it ends in the state in which it waits. -/
lemma dispatchClient_spec {n : ℕ} {s : Session σ} (hn : s.input.length ≤ n) :
    ((dispatchClient request n s).1.Pairwise (fun a _ => a.2 = false) ↔
        ∀ t, ReflTransGen (Turn request) s t → t.Final request) ∧
      ∀ t, ReflTransGen (Turn request) s t ∧ t.Waits ↔ (dispatchClient request n s).2 = t ∧
        t.inUse = true ∧ t.broken = false := by
  induction n generalizing s with
  | zero =>
    refine dispatchClient_spec_of_not_takes hn fun size h ht => ?_
    have hsize := wlConnectionNext_view ht.2.1
    omega
  | succ n ih =>
    by_cases htakes : ∃ size h, s.Takes request size h
    · obtain ⟨size, h, ht⟩ := htakes
      have hsize := wlConnectionNext_view ht.2.1
      have hlen : (s.taken size h).input.length ≤ n := by
        simp only [Session.taken, length_drop]
        omega
      obtain ⟨hfinal, hend⟩ := ih hlen
      rw [dispatchClient_of_takes n ht]
      constructor
      · simp only [pairwise_cons, turns_iff_of_takes ht, or_imp, forall_and, forall_eq', hfinal]
        refine and_congr_left fun _ => ?_
        have hnone := dispatchClient_eq_nil_iff request hlen
        constructor
        · intro hall size' h' ht' hposted
          obtain ⟨rfl, rfl⟩ := ht.unique ht'
          refine hnone.mp (eq_nil_iff_forall_not_mem.mpr fun a ha => ?_)
          rw [hall a ha] at hposted
          cases hposted
        · intro hs a ha
          by_contra hposted
          rw [hnone.mpr (hs size h ht (by simpa using hposted))] at ha
          cases ha
      · intro t
        rw [turns_iff_of_takes ht, ← hend t, or_and_right, or_iff_right]
        rintro ⟨rfl, hw⟩
        exact Next.noConfusion (hw.2.2.symm.trans ht.2.1)
    · push Not at htakes
      exact dispatchClient_spec_of_not_takes hn htakes

variable {request}

/-- No request is handled behind an error exactly if this is so within each call. -/
lemma serve_flatten_pairwise_iff (chunks : List (List UInt8)) (s : Session σ) :
    (serve request chunks s).flatten.Pairwise (fun a _ => a.2 = false) ↔
      ∀ turn ∈ serve request chunks s, turn.Pairwise fun a _ => a.2 = false := by
  rw [pairwise_flatten, and_iff_left]
  refine (serve_pairwise request chunks s).imp fun h x hx y hy => ?_
  by_contra hposted
  rw [h ⟨x, hx, by simpa using hposted⟩] at hy
  cases hy

/-- Reading goes on behind the state in which a call waits. -/
lemma reaches_cons_iff {bytes : List UInt8} {later : List (List UInt8)} {s u : Session σ} :
    Reaches request (bytes :: later) s u ↔ s.Reads bytes ∧
      (ReflTransGen (Turn request) (s.read bytes) u ∨
        ∃ t, (ReflTransGen (Turn request) (s.read bytes) t ∧ t.Waits) ∧
          Reaches request later t u) := by
  constructor
  · rintro (⟨hread, hturns⟩ | ⟨hread, hturns, hwaits, hlater⟩)
    · exact ⟨hread, .inl hturns⟩
    · exact ⟨hread, .inr ⟨_, ⟨hturns, hwaits⟩, hlater⟩⟩
  · rintro ⟨hread, hturns | ⟨t, ⟨hturns, hwaits⟩, hlater⟩⟩
    · exact .here hread hturns
    · exact .later hread hturns hwaits hlater

lemma Reaches.inUse {chunks : List (List UInt8)} {s u : Session σ} (h : Reaches request chunks s u) :
    s.inUse = true := by
  cases h with
  | here hread => exact hread.1
  | later hread => exact hread.1

/-- A client that is gone, or whose connection is broken, is not read again. -/
lemma reaches_closed_iff {later : List (List UInt8)} (r : Session σ) {u : Session σ} :
    Reaches request later { r with inUse := r.inUse && !r.broken } u ↔
      ∃ t, (r = t ∧ t.inUse = true ∧ t.broken = false) ∧ Reaches request later t u := by
  have hsame (hok : r.broken = false) : { r with inUse := r.inUse && !r.broken } = r := by
    cases r
    simp_all
  constructor
  · intro h
    obtain ⟨huse, hok⟩ : r.inUse = true ∧ r.broken = false := by simpa using h.inUse
    exact ⟨r, ⟨rfl, huse, hok⟩, hsame hok ▸ h⟩
  · rintro ⟨_, ⟨rfl, huse, hok⟩, h⟩
    rwa [hsame hok]

/-- For every client, whatever it sends: no request reaches a handler behind an error, if and only if
in no state in which `dispatch_client` looks for a request there is one complete behind another
whose handler posts an error. -/
theorem errors_final_iff (chunks : List (List UInt8)) (s : Session σ) :
    (serve request chunks s).flatten.Pairwise (fun a _ => a.2 = false) ↔
      ∀ t, Reaches request chunks s t → t.Final request := by
  rw [serve_flatten_pairwise_iff]
  induction chunks generalizing s with
  | nil => exact iff_of_true (fun _ h => by cases h) fun _ h => by cases h
  | cons bytes later ih =>
    by_cases hread : s.Reads bytes
    · have hlen : (s.read bytes).input.length ≤ s.input.length + bytes.length := by
        rw [Session.read, length_append]
      obtain ⟨hfinal, hend⟩ := dispatchClient_spec request hlen
      simp only [reaches_cons_iff, hread, true_and, or_imp, forall_and, hend, ← reaches_closed_iff,
        ← ih, ← hfinal]
      rw [serve, if_neg (by simp [hread.1]), if_neg hread.2]
      exact forall_mem_cons
    · -- nothing is read, now or later
      refine iff_of_true ?_ fun t ht => absurd (reaches_cons_iff.mp ht).1 hread
      rw [serve]
      split_ifs with huse hbroken
      · simp
      · cases later <;> simp [serve]
      · exact absurd ⟨by simpa using huse, hbroken⟩ hread

/-- Two requests come together, and the handler of the first posts an error. -/
theorem request_behind_error :
    let r := [7, 0, 0, 0, 0, 0, 8, 0]
    serve (fun _ _ => some ⟨(), true, true⟩) [r ++ r] ⟨(), [], true, false⟩ =
      [[(r, true), (r, true)]] := by
  decide

end Errors

end Wos.Wayland
