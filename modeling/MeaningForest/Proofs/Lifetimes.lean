import MeaningForest.Object.Store
import Mathlib.Data.List.Basic
import Mathlib.Data.List.Induction

/-!
# Lifetimes of handles

A program opens arenas, makes objects, puts them into arenas, changes them through the handles and releases arenas, in
any order; between these calls the memory of objects that no arena holds may be collected.  The state of an arena can be
told from the calls (`ObjectStore.getElem?_arenas`), and so can what becomes of a handle
(`ObjectStore.lastUntilRelease`): it can be used until its arena is released, and as long as it can be used, it refers
to the object that it was made for.
-/

namespace MeaningForest

variable {α : Type}

/-- A call of a program with arenas. -/
inductive ObjectCall (α : Type) where
  | openArena
  | create (v : α)
  | hold (arena object : Nat)
  | release (arena : Nat)
  /-- A change through a handle, at a time when some objects are live. -/
  | write (live : Nat → Bool) (h : Option ObjectHandle) (f : α → α)

namespace ObjectCall

/-- Whether the call releases an arena. -/
def releases (arena : Nat) : ObjectCall α → Bool
  | release a => a == arena
  | _ => false

/-- Whether the call puts an object into an arena. -/
def holds (arena : Nat) : ObjectCall α → Bool
  | hold a _ => a == arena
  | _ => false

/-- The arenas that the call opens. -/
def opened : ObjectCall α → List ObjectArena
  | openArena => [{}]
  | _ => []

/-- The call is about arenas and objects that there are. -/
def Fits (s : ObjectStore α) : ObjectCall α → Prop
  | hold arena object => arena < s.arenas.length ∧ object < s.objects.length
  | release arena => arena < s.arenas.length
  | openArena | create _ | write .. => True

theorem getElem?_opened {c : ObjectCall α} {i : Nat} (hi : i < c.opened.length) : c.opened[i]? = some {} := by
  cases c with
  | openArena =>
    obtain rfl : i = 0 := Nat.lt_one_iff.1 hi
    rfl
  | create v | hold a o | release a | write live h f => cases hi

end ObjectCall

/-! ### Arenas -/

namespace ObjectArena

/-- The arena of the given number after a call. -/
def after (a : ObjectArena) (arena : Nat) (c : ObjectCall α) : ObjectArena :=
  if c.releases arena then ⟨0, true⟩
  else if c.holds arena && !a.isReleased then { a with size := a.size + 1 }
  else a

/-- The arena of the given number after some calls, told from the calls. -/
def ofCalls (calls : List (ObjectCall α)) (arena : Nat) : ObjectArena :=
  if calls.any (·.releases arena) then ⟨0, true⟩ else ⟨calls.countP (·.holds arena), false⟩

variable {arena : Nat} {calls : List (ObjectCall α)} {c : ObjectCall α}

theorem mapIdx_eq_self {l : List ObjectArena} {f : Nat → ObjectArena → ObjectArena}
    (h : ∀ i a, l[i]? = some a → f i a = a) : l.mapIdx f = l := by
  refine List.ext_getElem? fun i => ?_
  rw [List.getElem?_mapIdx]
  cases ha : l[i]? with
  | none => rfl
  | some a => exact congrArg some (h i a ha)

theorem mapIdx_eq_modify {l : List ObjectArena} {f : Nat → ObjectArena → ObjectArena} {g : ObjectArena → ObjectArena}
    (hat : ∀ a, l[arena]? = some a → f arena a = g a) (hother : ∀ i a, i ≠ arena → f i a = a) :
    l.mapIdx f = l.modify arena g := by
  refine List.ext_getElem? fun i => ?_
  rw [List.getElem?_mapIdx, List.getElem?_modify]
  by_cases hi : i = arena
  · subst hi
    cases ha : l[i]? with
    | none => rfl
    | some a => simp [hat a ha]
  · have hne : arena ≠ i := fun h => hi h.symm
    cases l[i]? <;> simp [hother i _ hi, hne]

theorem ofCalls_concat : ofCalls (calls ++ [c]) arena = (ofCalls calls arena).after arena c := by
  rw [ofCalls, ofCalls, after, List.any_append, List.countP_append]
  cases calls.any (·.releases arena) <;> cases hrel : c.releases arena <;> cases hhold : c.holds arena <;>
    simp [hrel, hhold]

theorem after_eq_self {a : ObjectArena} (hrel : c.releases arena = false) (hhold : c.holds arena → a.isReleased) :
    a.after arena c = a := by
  rw [after, hrel]
  cases h : c.holds arena with
  | false => rfl
  | true => simp [hhold h]

theorem isReleased_after {a : ObjectArena} (hrel : c.releases arena = false) :
    (a.after arena c).isReleased = a.isReleased := by
  rw [after, hrel]
  cases c.holds arena && !a.isReleased <;> rfl

end ObjectArena

/-- A call does not use arenas that are not there. -/
theorem ObjectCall.Fits.after_empty {s : ObjectStore α} {c : ObjectCall α} {arena : Nat} (h : c.Fits s)
    (harena : s.arenas.length ≤ arena) : ObjectArena.after {} arena c = {} := by
  have hne : ∀ a, a < s.arenas.length → (a == arena) = false := fun a ha =>
    beq_false_of_ne (Nat.ne_of_lt (Nat.lt_of_lt_of_le ha harena))
  cases c with
  | hold a o =>
    exact ObjectArena.after_eq_self rfl fun hhold => absurd ((hne a h.1).symm.trans hhold) Bool.false_ne_true
  | release a => exact ObjectArena.after_eq_self (hne a h) fun hhold => absurd hhold Bool.false_ne_true
  | openArena | create v | write live h f => rfl

namespace ObjectStore

variable {s : ObjectStore α} {calls : List (ObjectCall α)} {c : ObjectCall α} {arena object : Nat}

/-- The store after a call, also after one that failed. -/
def after (s : ObjectStore α) : ObjectCall α → ObjectStore α
  | .openArena => s.openArena.2
  | .create v => (s.create v).2
  | .hold arena object => (ObjectEdit.hold arena object).after s
  | .release arena => s.release arena
  | .write live h f => (ObjectEdit.write live h f).after s

/-- An arena that does not take an object stays as it is. -/
theorem after_hold (s : ObjectStore α) (arena object : Nat) : s.after (.hold arena object) =
    if s.isReleased arena then s
    else { s with arenas := s.arenas.modify arena fun a => { a with size := a.size + 1 } } := by
  rw [after]
  split
  · rename_i hrel
    exact (ObjectEdit.atomic_hold arena object).after_of_result (hold_def.trans (if_pos hrel))
  · rename_i hrel
    exact Effect.after_of_result (hold_def.trans (if_neg hrel))

theorem after_write_eq {live : Nat → Bool} {h : Option ObjectHandle} {f : α → α} {s' : ObjectStore α}
    (hwrite : s.write live h f = .ok s') : s.after (.write live h f) = s' :=
  Effect.after_of_outcome hwrite

/-- What a write does to the store, if it does something. -/
theorem after_write (live : Nat → Bool) (h : Option ObjectHandle) (f : α → α) : s.after (.write live h f) = s ∨
    ∃ object, s.find live h = .ok object ∧
      s.after (.write live h f) = { s with objects := s.objects.modify object f } := by
  cases hwrite : s.write live h f with
  | error e =>
    exact .inl ((ObjectEdit.atomic_write live h f).after_of_result (Effect.outcome_eq_error.1 hwrite))
  | ok s' =>
    obtain ⟨object, hfind, rfl⟩ := write_eq_ok.1 hwrite
    exact .inr ⟨object, hfind, after_write_eq hwrite⟩

/-- What a call does to each arena. -/
theorem arenas_after (s : ObjectStore α) (c : ObjectCall α) :
    (s.after c).arenas = (s.arenas.mapIdx fun i a => a.after i c) ++ c.opened := by
  cases c with
  | openArena => exact congrArg (· ++ [{}]) (ObjectArena.mapIdx_eq_self fun _ _ _ => rfl).symm
  | create v => exact ((List.append_nil _).trans (ObjectArena.mapIdx_eq_self fun _ _ _ => rfl)).symm
  | hold arena object =>
    refine Eq.trans ?_ (List.append_nil _).symm
    rw [after_hold]
    cases hopen : s.isReleased arena with
    | true =>
      refine (ObjectArena.mapIdx_eq_self fun i a ha => ObjectArena.after_eq_self rfl fun hhold => ?_).symm
      obtain rfl : arena = i := eq_of_beq hhold
      exact (isReleased_of_getElem? ha).symm.trans hopen
    | false =>
      refine (ObjectArena.mapIdx_eq_modify (fun a ha => ?_) fun i a hi => ?_).symm
      · rw [isReleased_of_getElem? ha] at hopen
        simp [ObjectArena.after, ObjectCall.releases, ObjectCall.holds, hopen]
      · exact ObjectArena.after_eq_self rfl fun hhold => absurd (eq_of_beq hhold).symm hi
  | release arena =>
    refine Eq.trans ?_ (List.append_nil _).symm
    refine (List.set_eq_modify _ _ _).trans (ObjectArena.mapIdx_eq_modify (fun a ha => ?_) fun i a hi => ?_).symm
    · simp [ObjectArena.after, ObjectCall.releases]
    · exact ObjectArena.after_eq_self (beq_false_of_ne hi.symm) fun hhold => absurd hhold Bool.false_ne_true
  | write live h f =>
    have hsame : (s.after (.write live h f)).arenas = s.arenas := by
      rcases s.after_write live h f with hwrite | ⟨object, -, hwrite⟩ <;> rw [hwrite]
    exact hsame.trans ((List.append_nil _).trans (ObjectArena.mapIdx_eq_self fun _ _ _ => rfl)).symm

theorem getElem?_arenas_after (s : ObjectStore α) (harena : arena < s.arenas.length) :
    (s.after c).arenas[arena]? = (s.arenas[arena]?).map fun a => a.after arena c := by
  rw [s.arenas_after, List.getElem?_append_left (by rwa [List.length_mapIdx]), List.getElem?_mapIdx]

/-- A call other than a write leaves the contents of objects as they are. -/
theorem objects_after (s : ObjectStore α) (c : ObjectCall α) (hc : ∀ live h f, c ≠ .write live h f) :
    s.objects <+: (s.after c).objects := by
  cases c with
  | openArena => exact List.prefix_rfl
  | create v => exact List.prefix_append ..
  | hold a object =>
    rw [after_hold]
    cases s.isReleased a <;> exact List.prefix_rfl
  | release a => exact List.prefix_rfl
  | write live h f => exact absurd rfl (hc live h f)

theorem length_objects_after (s : ObjectStore α) (c : ObjectCall α) :
    s.objects.length ≤ (s.after c).objects.length := by
  by_cases hc : ∃ live h f, c = .write live h f
  · obtain ⟨live, h, f, rfl⟩ := hc
    rcases s.after_write live h f with hwrite | ⟨object, -, hwrite⟩
    · exact Nat.le_of_eq (by rw [hwrite])
    · exact Nat.le_of_eq (by rw [hwrite, List.length_modify])
  · exact (s.objects_after c fun live h f hwrite => hc ⟨live, h, f, hwrite⟩).length_le

/-! ### Contents -/

variable {live : Nat → Bool} {h : ObjectHandle}

/-- A write is seen through the handles of its object and through no other handle. -/
theorem read_modify (s : ObjectStore α) (live : Nat → Bool) (object : Nat) (f : α → α) (h : ObjectHandle) :
    ({ s with objects := s.objects.modify object f } : ObjectStore α).read live (some h) =
      if h.object = object then (s.read live (some h)).map f else s.read live (some h) := by
  have hfind : ({ s with objects := s.objects.modify object f } : ObjectStore α).find live (some h) =
      s.find live (some h) := find_congr rfl (by simp [isPresent])
  rw [read_some, read_some, hfind, List.getElem?_modify]
  by_cases hsame : h.object = object
  · rw [if_pos hsame]
    cases s.find live (some h) <;> cases s.objects[h.object]? <;> simp [hsame, Except.bind, Except.map]
  · have hne : object ≠ h.object := fun h => hsame h.symm
    rw [if_neg hsame]
    cases s.objects[h.object]? <;> simp [hne]

/-- A call other than a write does not change what is seen, unless it releases the arena. -/
theorem read_after (harena : h.arena < s.arenas.length) (hobject : h.object < s.objects.length)
    (hrel : c.releases h.arena = false) (hc : ∀ live h f, c ≠ .write live h f) :
    (s.after c).read live (some h) = s.read live (some h) := by
  have hprefix := s.objects_after c hc
  have hflag : (s.after c).isReleased h.arena = s.isReleased h.arena := by
    have ha := List.getElem?_eq_getElem harena
    have ha' := s.getElem?_arenas_after (c := c) harena
    rw [ha] at ha'
    rw [isReleased_of_getElem? ha, isReleased_of_getElem? ha', ObjectArena.isReleased_after hrel]
  have hfind : (s.after c).find live (some h) = s.find live (some h) := by
    refine find_congr hflag ?_
    simp [isPresent, hobject, Nat.lt_of_lt_of_le hobject hprefix.length_le]
  have hcontent : (s.after c).objects[h.object]? = s.objects[h.object]? := by
    obtain ⟨made, hmade⟩ := hprefix
    rw [← hmade, List.getElem?_append_left hobject]
  rw [read_some, read_some, hfind, hcontent]

/-! ### Runs -/

/-- The store after some calls. -/
def run (s : ObjectStore α) (calls : List (ObjectCall α)) : ObjectStore α := calls.foldl after s

/-- Each call is about arenas and objects that there are at that time. -/
def FitsAll (s : ObjectStore α) : List (ObjectCall α) → Prop
  | [] => True
  | c :: calls => c.Fits s ∧ (s.after c).FitsAll calls

theorem run_append (s : ObjectStore α) (calls more : List (ObjectCall α)) :
    s.run (calls ++ more) = (s.run calls).run more :=
  List.foldl_append

theorem run_concat (s : ObjectStore α) (calls : List (ObjectCall α)) (c : ObjectCall α) :
    s.run (calls ++ [c]) = (s.run calls).after c := s.run_append ..

theorem fitsAll_append {more : List (ObjectCall α)} :
    s.FitsAll (calls ++ more) ↔ s.FitsAll calls ∧ (s.run calls).FitsAll more := by
  induction calls generalizing s with
  | nil => exact (iff_of_eq (true_and _)).symm
  | cons c calls ih =>
    rw [List.cons_append, FitsAll, FitsAll, ih, and_assoc]
    rfl

theorem length_run (s : ObjectStore α) (calls : List (ObjectCall α)) :
    s.arenas.length ≤ (s.run calls).arenas.length ∧ s.objects.length ≤ (s.run calls).objects.length := by
  induction calls generalizing s with
  | nil => exact ⟨Nat.le_refl _, Nat.le_refl _⟩
  | cons c calls ih =>
    have harenas : s.arenas.length ≤ (s.after c).arenas.length := by
      rw [s.arenas_after, List.length_append, List.length_mapIdx]
      exact Nat.le_add_right ..
    exact ⟨Nat.le_trans harenas (ih _).1, Nat.le_trans (s.length_objects_after c) (ih _).2⟩

/-- An arena that is not there has not been used. -/
theorem ofCalls_of_le (hfits : FitsAll {} calls) (harena : (run {} calls).arenas.length ≤ arena) :
    ObjectArena.ofCalls calls arena = {} := by
  induction calls using List.reverseRecOn with
  | nil => rfl
  | append_singleton calls c ih =>
    obtain ⟨hcalls, hc, -⟩ := fitsAll_append.1 hfits
    rw [run_append] at harena
    have hle := Nat.le_trans (length_run _ [c]).1 harena
    rw [ObjectArena.ofCalls_concat, ih hcalls hle, hc.after_empty hle]

/-- The state of an arena, told from the calls. -/
theorem getElem?_arenas (hfits : FitsAll {} calls) (harena : arena < (run {} calls).arenas.length) :
    (run {} calls).arenas[arena]? = some (ObjectArena.ofCalls calls arena) := by
  induction calls using List.reverseRecOn with
  | nil => cases harena
  | append_singleton calls c ih =>
    obtain ⟨hcalls, hc, -⟩ := fitsAll_append.1 hfits
    rw [run_concat] at harena ⊢
    rw [ObjectArena.ofCalls_concat]
    by_cases hlt : arena < (run {} calls).arenas.length
    · rw [getElem?_arenas_after _ hlt, ih hcalls hlt]
      rfl
    · have hle := Nat.le_of_not_lt hlt
      rw [ofCalls_of_le hcalls hle, hc.after_empty hle, arenas_after,
        List.getElem?_append_right (by rwa [List.length_mapIdx]), List.length_mapIdx]
      rw [arenas_after, List.length_append, List.length_mapIdx] at harena
      exact ObjectCall.getElem?_opened (Nat.sub_lt_left_of_lt_add hle harena)

/-! ### Handles -/

section

variable (calls : List (ObjectCall α)) (arena object : Nat)

/-- Whether an arena was released. -/
def released : Bool := calls.any (·.releases arena)

/-- A handle was made by putting an object into an arena. -/
def Made (h : ObjectHandle) : Prop :=
  ∃ before later s', calls = before ++ .hold arena object :: later ∧
    (run {} before).hold arena object = .ok (h, s')

/-- No object is collected as long as an arena holds it. -/
def Spares (live : Nat → Bool) : Prop :=
  ∀ arena object h, Made calls arena object h → released calls arena = false → live object

end

theorem isReleased_run (hfits : FitsAll {} calls) (harena : arena < (run {} calls).arenas.length) :
    (run {} calls).isReleased arena = released calls arena := by
  rw [isReleased_of_getElem? (getElem?_arenas hfits harena), ObjectArena.ofCalls, released]
  cases calls.any (·.releases arena) <;> rfl

theorem size_run (hfits : FitsAll {} calls) (arena : Nat) : (run {} calls).size arena =
    if released calls arena then 0 else calls.countP (·.holds arena) := by
  have hsize : (run {} calls).size arena = (ObjectArena.ofCalls calls arena).size := by
    by_cases harena : arena < (run {} calls).arenas.length
    · rw [size, getElem?_arenas hfits harena]
      rfl
    · have hle := Nat.le_of_not_lt harena
      rw [size, List.getElem?_eq_none hle, ofCalls_of_le hfits hle]
      rfl
  rw [hsize, ObjectArena.ofCalls, released]
  cases calls.any (·.releases arena) <;> rfl

theorem released_concat {c : ObjectCall α} :
    released (calls ++ [c]) arena = (released calls arena || c.releases arena) := by
  simp [released]

theorem isReleased_of_released (hfits : FitsAll {} calls) (hgone : released calls arena = true) :
    (run {} calls).isReleased arena = true := by
  by_cases harena : arena < (run {} calls).arenas.length
  · exact (isReleased_run hfits harena).trans hgone
  · rw [isReleased, List.getElem?_eq_none (Nat.le_of_not_lt harena)]
    rfl

namespace Made

variable (hmade : Made calls arena object h) (hfits : FitsAll {} calls)

include hmade

theorem eq : h = ⟨arena, object⟩ := by
  obtain ⟨before, later, s', -, hhold⟩ := hmade
  exact (hold_eq_ok.1 hhold).2.1

include hfits

/-- The arena and the object of a handle stay. -/
theorem lt_length : arena < (run {} calls).arenas.length ∧ object < (run {} calls).objects.length := by
  obtain ⟨before, later, s', rfl, -⟩ := hmade
  obtain ⟨-, ⟨harena, hobject⟩, -⟩ := fitsAll_append.1 hfits
  have hlength := (run {} before).length_run (.hold arena object :: later)
  rw [run_append]
  exact ⟨Nat.lt_of_lt_of_le harena hlength.1, Nat.lt_of_lt_of_le hobject hlength.2⟩

theorem find_eq (hlive : Spares calls live) (hkept : released calls arena = false) :
    (run {} calls).find live (some h) = .ok object := by
  obtain ⟨harena, hobject⟩ := hmade.lt_length hfits
  refine find_eq_ok.2 ⟨arena, congrArg some hmade.eq, (isReleased_run hfits harena).trans hkept, ?_⟩
  simp [isPresent, hlive _ _ _ hmade hkept, hobject]

theorem exists_read (hlive : Spares calls live) (hkept : released calls arena = false) :
    ∃ v, (run {} calls).objects[object]? = some v ∧ (run {} calls).read live (some h) = .ok v := by
  have hcontent := List.getElem?_eq_getElem (hmade.lt_length hfits).2
  exact ⟨_, hcontent, read_eq_ok.2 ⟨object, hmade.find_eq hfits hlive hkept, hcontent⟩⟩

theorem write_eq (hlive : Spares calls live) (hkept : released calls arena = false) (f : α → α) :
    (run {} calls).write live (some h) f =
      .ok { run {} calls with objects := (run {} calls).objects.modify object f } :=
  write_eq_ok.2 ⟨object, hmade.find_eq hfits hlive hkept, rfl⟩

theorem find_released (hgone : released calls arena = true) :
    (run {} calls).find live (some h) = .error .outlivedArena := by
  have hrel := (isReleased_run hfits (hmade.lt_length hfits).1).trans hgone
  rw [hmade.eq, find, hrel]
  rfl

theorem isUsable_iff (hlive : Spares calls live) : (run {} calls).isUsable live (some h) ↔
    released calls arena = false := by
  rw [isUsable_iff_find]
  cases hrel : released calls arena with
  | true =>
    rw [hmade.find_released hfits hrel]
    simp
  | false => exact iff_of_true ⟨object, hmade.find_eq hfits hlive hrel⟩ rfl

end Made

/-- What the handles and arenas of a program are after some calls, when the objects outside `live` are collected. -/
structure LastUntilRelease (calls : List (ObjectCall α)) (live : Nat → Bool) : Prop where
  isUsable_iff_find : ∀ h, (run {} calls).isUsable live h ↔ ∃ object, (run {} calls).find live h = .ok object
  not_isUsable_none : (run {} calls).isUsable live none = false
  isUsable_iff : ∀ {arena object h}, Made calls arena object h →
    ((run {} calls).isUsable live (some h) ↔ released calls arena = false)
  find_eq : ∀ {arena object h}, Made calls arena object h → released calls arena = false →
    (run {} calls).find live (some h) = .ok object
  /-- What is read is the content of the object. -/
  read_eq : ∀ {arena object h}, Made calls arena object h → released calls arena = false →
    ∃ v, (run {} calls).objects[object]? = some v ∧ (run {} calls).read live (some h) = .ok v
  /-- A write succeeds, and is seen through the handles of its object and through no other handle. -/
  write_seen : ∀ {arena object h} (f : α → α), Made calls arena object h → released calls arena = false →
    (run {} calls).write live (some h) f = .ok (run {} (calls ++ [.write live (some h) f])) ∧
    ∀ {arena' object' h'}, Made calls arena' object' h' →
      (run {} (calls ++ [.write live (some h) f])).read live (some h') =
        if object' = object then ((run {} calls).read live (some h')).map f else (run {} calls).read live (some h')
  /-- Other calls do not change what is seen, unless the arena is released. -/
  kept : ∀ {arena object h c}, Made calls arena object h → released (calls ++ [c]) arena = false →
    (∀ live h f, c ≠ .write live h f) →
      (run {} (calls ++ [c])).read live (some h) = (run {} calls).read live (some h)
  /-- An arena takes objects until it is released, and none afterwards. -/
  hold_open : ∀ {arena} object, arena < (run {} calls).arenas.length → released calls arena = false →
    ∃ s', (run {} calls).hold arena object = .ok (⟨arena, object⟩, s')
  hold_released : ∀ {arena} object, released calls arena →
    (run {} calls).hold arena object = .error .releasedArena ∧ run {} (calls ++ [.hold arena object]) = run {} calls
  size_eq : ∀ arena, (run {} calls).size arena =
    if released calls arena then 0 else calls.countP (·.holds arena)

/-- A handle can be used until its arena is released, and refers to its object as long as it can be used; an arena
counts the objects that were put into it until it is released. -/
theorem lastUntilRelease (calls : List (ObjectCall α)) (hfits : FitsAll {} calls) (live : Nat → Bool)
    (hlive : Spares calls live) : LastUntilRelease calls live where
  isUsable_iff_find _ := ObjectStore.isUsable_iff_find
  not_isUsable_none := rfl
  isUsable_iff hmade := hmade.isUsable_iff hfits hlive
  find_eq hmade hkept := hmade.find_eq hfits hlive hkept
  read_eq hmade hkept := hmade.exists_read hfits hlive hkept
  write_seen f hmade hkept := by
    have hwrite := hmade.write_eq hfits hlive hkept f
    rw [run_concat, after_write_eq hwrite]
    refine ⟨hwrite, fun {arena' object' h'} hmade' => ?_⟩
    rw [read_modify, hmade'.eq]
  kept hmade hkept hc := by
    obtain ⟨harena, hobject⟩ := hmade.lt_length hfits
    rw [released_concat, Bool.or_eq_false_iff] at hkept
    obtain rfl := hmade.eq
    rw [run_concat, read_after harena hobject hkept.2 hc]
  hold_open object harena hkept :=
    ⟨_, hold_eq_ok.2 ⟨(isReleased_run hfits harena).trans hkept, rfl, rfl⟩⟩
  hold_released object hgone := by
    have hrel := isReleased_of_released hfits hgone
    rw [run_concat, after_hold, hold_def, hrel]
    exact ⟨rfl, rfl⟩
  size_eq := size_run hfits

/-- Two arenas hold the same object, and one of them holds another object and is released. -/
def shared : List (ObjectCall Nat) :=
  [.openArena, .openArena, .create 5, .create 7, .hold 0 0, .hold 1 0, .hold 1 1, .release 1]

theorem lastUntilRelease_shared : FitsAll {} shared ∧ Spares shared (· == 0) ∧ LastUntilRelease shared (· == 0) := by
  have hfits : FitsAll {} shared := by simp +decide [shared, FitsAll, ObjectCall.Fits]
  have hlive : Spares shared (· == 0) := by
    rintro arena object h ⟨before, later, s', hcalls, -⟩ hkept
    have hmem : .hold arena object ∈ shared := by rw [hcalls]; simp
    simp only [shared, List.mem_cons, ObjectCall.hold.injEq, reduceCtorEq, List.not_mem_nil, or_false, false_or] at hmem
    rcases hmem with ⟨rfl, rfl⟩ | ⟨rfl, rfl⟩ | ⟨rfl, rfl⟩
    · rfl
    · cases hkept
    · cases hkept
  exact ⟨hfits, hlive, lastUntilRelease shared hfits (· == 0) hlive⟩

end ObjectStore

end MeaningForest
