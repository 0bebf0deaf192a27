import MeaningForest.Proofs.FileTrees
import Mathlib.Data.List.Induction
import Mathlib.Data.List.TakeWhile

/-!
# Where paths lead

The location of a path is the place it leads to if all that it names is there (`FileTree.location`).  Leaving detours
out of a path does not change its location (`FileTree.location_clean`), and a path without detours has no `..` behind a
name (`Path.Direct`).  Writing outputs changes the entries at their locations and makes directories above them, no more
(`FileTree.Overlay`), so a file that is not at the location of an output is read as before (`FileTree.Overlay.read`).
-/

namespace MeaningForest

/-! ### Elements -/

namespace Path

variable {es done front : List Text} {e x : Text}

/-- The place after one more element, if all that is named is there. -/
def toward (p : List Text) (e : Text) : List Text :=
  if e.isEmpty || e == here then p else if e == above then p.dropLast else p ++ [e]

/-- Behind a name there are only names. -/
def Direct (es : List Text) : Prop := es.Pairwise fun x y => isName x → isName y

theorem isName_or (e : Text) : isName e ∨ e = [] ∨ e = here ∨ e = above := by
  by_cases h : isName e
  · exact .inl h
  · simp only [isName, Bool.and_eq_true, Bool.not_eq_true', bne_iff_ne, ne_eq, not_and_or, not_not] at h
    rcases h with (h | h) | h
    · exact .inr (.inl (by simpa using h))
    · exact .inr (.inr (.inl h))
    · exact .inr (.inr (.inr h))

theorem toward_name (h : isName e) (p : List Text) : toward p e = p ++ [e] := by
  simp only [isName, Bool.and_eq_true, Bool.not_eq_true', bne_iff_ne, ne_eq] at h
  simp [toward, h.1.1, h.1.2, h.2]

theorem foldl_toward_names (h : ∀ e ∈ es, isName e) (p : List Text) : es.foldl toward p = p ++ es := by
  induction es generalizing p with
  | nil => exact (List.append_nil p).symm
  | cons e es ih =>
    rw [List.foldl_cons, toward_name (h e (List.mem_cons_self ..)), ih fun x hx => h x (List.mem_cons_of_mem _ hx),
      List.append_assoc]
    rfl

/-- Elements that lead nowhere. -/
theorem foldl_toward_skips (h : ∀ e ∈ es, e = [] ∨ e = here) (p : List Text) : es.foldl toward p = p := by
  induction es with
  | nil => rfl
  | cons e es ih =>
    have he : toward p e = p := by
      rcases h e (List.mem_cons_self ..) with rfl | rfl <;> rfl
    rw [List.foldl_cons, he, ih fun x hx => h x (List.mem_cons_of_mem _ hx)]

/-- What is kept of a path without detours. -/
theorem isName_of_mem_step {absolute : Bool} (hdone : ∀ x ∈ done, isName x ∨ x = above) :
    ∀ x ∈ step absolute done e, isName x ∨ x = above := by
  intro x hx
  rcases isName_or e with he | rfl | rfl | rfl
  · rcases mem_step hx with hx | ⟨-, rfl⟩ | rfl
    · exact hdone x hx
    · exact .inl he
    · exact .inr rfl
  · exact hdone x hx
  · exact hdone x hx
  · rcases mem_step hx with hx | ⟨-, rfl⟩ | rfl
    · exact hdone x hx
    · exact .inr rfl
    · exact .inr rfl

theorem step_above (absolute : Bool) (last : Text) (before : List Text) :
    step absolute (last :: before) above = if last == above then above :: last :: before else before := rfl

theorem foldl_toward_step {absolute : Bool} {p : List Text} (hp : absolute → p = [])
    (hdone : ∀ x ∈ done, isName x ∨ x = above) :
    (step absolute done e).reverse.foldl toward p = toward (done.reverse.foldl toward p) e := by
  rcases isName_or e with he | rfl | rfl | rfl
  · have hstep : step absolute done e = e :: done := foldl_step_names absolute [e] done (by simpa using he)
    rw [hstep, List.reverse_cons, List.foldl_append]
    rfl
  · rfl
  · rfl
  · cases done with
    | nil =>
      cases absolute with
      | true => rw [hp rfl]; rfl
      | false => rfl
    | cons last before =>
      rcases hdone last (List.mem_cons_self ..) with hlast | rfl
      · have hne : (last == above) = false := by
          simp only [isName, Bool.and_eq_true, bne_iff_ne] at hlast
          simpa using hlast.2
        rw [step_above, hne, if_neg (by decide), List.reverse_cons, List.foldl_append, List.foldl_cons, List.foldl_nil,
          toward_name hlast]
        exact List.dropLast_concat.symm
      · rw [step_above, if_pos (by decide), List.reverse_cons, List.foldl_append]
        rfl

/-- Leaving detours out does not change where the elements lead. -/
theorem foldl_toward_reduce {absolute : Bool} {p : List Text} (hp : absolute → p = []) (es : List Text) :
    (reduce absolute es).foldl toward p = es.foldl toward p := by
  suffices h : ∀ (es done : List Text), (∀ x ∈ done, isName x ∨ x = above) →
      (es.foldl (step absolute) done).reverse.foldl toward p = es.foldl toward (done.reverse.foldl toward p) from
    h es [] (by simp)
  intro es
  induction es with
  | nil => exact fun _ _ => rfl
  | cons e es ih =>
    intro done hdone
    rw [List.foldl_cons, List.foldl_cons, ih _ (isName_of_mem_step hdone), foldl_toward_step hp hdone]

theorem not_isName_above : ¬ isName above := by decide

theorem direct_step {absolute : Bool} (h : Direct done.reverse) : Direct (step absolute done e).reverse := by
  rw [Direct, List.pairwise_reverse] at h ⊢
  rw [step.eq_def]
  split
  · exact h
  · split
    · rename_i hskip habove
      have he : isName e := by simpa [isName, not_or, and_assoc] using And.intro hskip habove
      exact List.pairwise_cons.2 ⟨fun _ _ _ => he, h⟩
    · split
      · split
        · exact h
        · exact List.pairwise_singleton ..
      · rename_i last before
        obtain ⟨hlast, hbefore⟩ := List.pairwise_cons.1 h
        split
        · rename_i heq
          obtain rfl : last = above := by simpa using heq
          refine List.pairwise_cons.2 ⟨fun x hx hname => ?_, h⟩
          rcases List.mem_cons.1 hx with rfl | hx
          · exact hname
          · exact hlast x hx hname
        · exact hbefore

theorem direct_reduce (absolute : Bool) (es : List Text) : Direct (reduce absolute es) := by
  suffices h : ∀ es done : List Text, Direct done.reverse → Direct
    (es.foldl (step absolute) done).reverse from h es [] .nil
  intro es
  induction es with
  | nil => exact fun _ h => h
  | cons e es ih => exact fun done h => ih _ (direct_step h)

/-- The elements behind a name of a path without detours are names. -/
theorem Direct.names_behind {rest : List Text} (h : Direct (front ++ e :: rest)) (he : isName e) :
    ∀ x ∈ rest, isName x :=
  fun x hx => (List.pairwise_cons.1 (List.pairwise_append.1 h).2.1).1 x hx he

theorem isAbsolute_clean (p : Text) : isAbsolute (clean p) = isAbsolute p :=
  isAbsolute_ofElements _ fun _ he => ⟨(mem_reduce he).1, notMem_lead he⟩

theorem elements_clean (p : Text) : ∃ skips, (∀ e ∈ skips, e = [] ∨ e = here) ∧
    elements (clean p) = skips ++ reduce (isAbsolute p) (elements p) := by
  by_cases hnil : reduce (isAbsolute p) (elements p) = []
  · rw [clean, hnil]
    cases isAbsolute p with
    | true => exact ⟨[[], []], by simp, rfl⟩
    | false => exact ⟨[here], by simp, rfl⟩
  · refine ⟨if isAbsolute p then [[]] else [], ?_, elements_ofElements _ hnil fun _ he => notMem_lead he⟩
    split <;> simp

theorem direct_clean (p : Text) : Direct (elements (clean p)) := by
  obtain ⟨skips, hskips, hes⟩ := elements_clean p
  have hno : ∀ e ∈ skips, ¬ isName e := by
    intro e he
    rcases hskips e he with rfl | rfl <;> decide
  rw [hes, Direct, List.pairwise_append]
  refine ⟨?_, direct_reduce .., fun x hx _ _ hname => absurd hname (hno x hx)⟩
  exact List.pairwise_of_forall_mem_list fun x hx _ _ hname => absurd hname (hno x hx)

theorem direct_join (a b : Text) : Direct (elements (join a b)) := by
  rw [join]
  split
  · exact direct_clean _
  · split
    · exact direct_clean _
    · exact List.pairwise_singleton ..

/-! ### Cutting paths -/

/-- Cutting at slashes: a part that is empty or ends with a slash has the elements before that slash. -/
theorem eq_nil_or_slash (p : Text) : (p.dropWhile (· != slash)).reverse = [] ∨
    ∃ u, (p.dropWhile (· != slash)).reverse = u ++ [slash] := by
  cases h : p.dropWhile (· != slash) with
  | nil => exact .inl rfl
  | cons b rest =>
    have hb : b = slash := by
      have := List.head?_dropWhile_not (fun c : UInt8 => c != slash) p
      rw [h] at this
      simpa using this
    exact .inr ⟨rest.reverse, by rw [hb, List.reverse_cons]⟩

theorem elements_append_slash (u rest : Text) : elements (u ++ slash :: rest) = elements u ++ elements rest :=
  Text.split_append_sep u rest

/-- The directory of a path has the elements before the last one. -/
theorem exists_dir (p : Text) : ∃ u, dir p = clean u ∧ elements u = (elements p).dropLast ++ [[]] ∧
    isAbsolute u = isAbsolute p := by
  refine ⟨(p.reverse.dropWhile (· != slash)).reverse, rfl, ?_⟩
  obtain ⟨last, hlast, hp⟩ : ∃ last, slash ∉ last ∧ p = (p.reverse.dropWhile (· != slash)).reverse ++ last := by
    refine ⟨(p.reverse.takeWhile (· != slash)).reverse, fun h => ?_, ?_⟩
    · simpa using List.mem_takeWhile_imp (List.mem_reverse.1 h)
    · rw [← List.reverse_append, List.takeWhile_append_dropWhile, List.reverse_reverse]
  rcases eq_nil_or_slash p.reverse with hu | ⟨u, hu⟩
  · rw [hu] at hp ⊢
    rw [List.nil_append] at hp
    rw [hp, elements, elements, Text.split_of_notMem hlast]
    refine ⟨rfl, ?_⟩
    cases last with
    | nil => rfl
    | cons b rest =>
      have hb : b ≠ slash := fun h => hlast (h ▸ List.mem_cons_self ..)
      simpa [isAbsolute] using hb
  · rw [hu] at hp ⊢
    rw [List.append_assoc, List.singleton_append] at hp
    have hlast' : elements last = [last] := Text.split_of_notMem hlast
    refine ⟨?_, ?_⟩
    · rw [hp, elements_append_slash, elements_append_slash, hlast', List.dropLast_concat]
      rfl
    · rw [hp, isAbsolute, isAbsolute]
      cases u <;> rfl

theorem elements_trim_prefix (p : Text) : elements (Text.trimEndWhile (· == slash) p) <+: elements p := by
  have hp : p = Text.trimEndWhile (· == slash) p ++ (p.reverse.takeWhile (· == slash)).reverse := by
    rw [Text.trimEndWhile, ← List.reverse_append, List.takeWhile_append_dropWhile, List.reverse_reverse]
  cases h : (p.reverse.takeWhile (· == slash)).reverse with
  | nil =>
    rw [h, List.append_nil] at hp
    exact ⟨[], by rw [List.append_nil, ← hp]⟩
  | cons b rest =>
    have hb : b = slash := by
      have hmem : b ∈ p.reverse.takeWhile (· == slash) := List.mem_reverse.1 (h ▸ List.mem_cons_self ..)
      simpa using List.mem_takeWhile_imp hmem
    rw [h, hb] at hp
    conv => rhs; rw [hp, elements_append_slash]
    exact List.prefix_append ..

theorem prefix_of_concat_nil (h : front ++ [e] <+: es ++ [[]]) (he : e ≠ []) : front ++ [e] <+: es := by
  rcases List.prefix_concat_iff.1 h with h | h
  · exact absurd (List.append_inj_right' h rfl) (by simpa using he)
  · exact h

theorem parentPath_prefix (p : Text) : FileTree.parentPath p <+: p := by
  have hsuffix := (List.dropWhile_suffix (· != slash)).trans (List.dropWhile_suffix (l := p.reverse) (· == slash))
  simpa [FileTree.parentPath] using List.reverse_prefix.2 hsuffix

/-- What the path without its last element leads over, the path leads over. -/
theorem prefix_of_parentPath {p : Text} (h : front ++ [e] <+: elements (FileTree.parentPath p)) (he : e ≠ []) :
    front ++ [e] <+: elements p := by
  rcases eq_nil_or_slash (p.reverse.dropWhile (· == slash)) with hnil | ⟨u, hu⟩
  · rw [FileTree.parentPath, hnil] at h
    have hnone : front ++ [e] <+: [] := prefix_of_concat_nil h he
    exact absurd (List.prefix_nil.1 hnone) (by simp)
  · obtain ⟨rest, hrest⟩ := parentPath_prefix p
    have hparent : FileTree.parentPath p = u ++ slash :: [] := hu
    rw [hparent, elements_append_slash] at h
    rw [← hrest, hparent, List.append_assoc, List.cons_append, elements_append_slash]
    exact (prefix_of_concat_nil h he).trans (List.prefix_append ..)

end Path

/-! ### Locations -/

namespace FileTree

variable {t t' t'' : FileTree} {p q : Place} {es : List Text} {path content : Text}

/-- The place a path leads to if all that it names is there. -/
def location (t : FileTree) (path : Text) : Place := (Path.elements path).foldl Path.toward (t.start path)

theorem location_of_workingDir (h : t'.workingDir = t.workingDir) (path : Text) :
    t'.location path = t.location path := by
  rw [location, location, start, start, h]

/-- Leaving detours out of a path does not change where it leads. -/
theorem location_clean (t : FileTree) (path : Text) : t.location (Path.clean path) = t.location path := by
  obtain ⟨skips, hskips, hes⟩ := Path.elements_clean path
  have hstart : t.start (Path.clean path) = t.start path := by rw [start, start, Path.isAbsolute_clean]
  have hroot : Path.isAbsolute path → t.start path = [] := fun h => if_pos h
  rw [location, hes, hstart, List.foldl_append, Path.foldl_toward_skips hskips, Path.foldl_toward_reduce hroot,
    location]

theorem location_dir (t : FileTree) (path : Text) :
    t.location (Path.dir path) = (Path.elements path).dropLast.foldl Path.toward (t.start path) := by
  obtain ⟨u, hdir, hes, habsolute⟩ := Path.exists_dir path
  rw [hdir, location_clean, location, hes, start, habsolute, List.foldl_append]
  rfl

theorem follow_toward (h : t.follow p es = .ok q) : es.foldl Path.toward p = q := by
  induction es generalizing p with
  | nil => exact Except.ok.inj h
  | cons e es ih =>
    rw [List.foldl_cons]
    rw [follow] at h
    split at h
    · cases h
    · rw [Path.toward]
      split at h
      · rename_i hskip
        rw [if_pos hskip]
        exact ih h
      · rename_i hskip
        rw [if_neg hskip]
        split at h
        · rename_i habove
          rw [if_pos habove]
          exact ih h
        · rename_i habove
          rw [if_neg habove]
          split at h
          · cases h
          · split at h
            · cases h
            · exact ih h

theorem resolve_location (h : t.resolve path = .ok q) : t.location path = q := follow_toward (resolve_eq_ok.1 h).2

theorem read_eq_ok : t.read path = .ok content ↔ ∃ q, t.resolve path = .ok q ∧ t.entryAt q = some (.file content) := by
  refine ⟨fun h => ?_, fun ⟨q, hq, hfile⟩ => read_of_resolve hq hfile⟩
  obtain ⟨e, he, h⟩ := bind_eq_ok.1 h
  obtain ⟨q, hq, he⟩ := bind_eq_ok.1 (of_eq_ok.1 he)
  cases e with
  | directory => cases h
  | file c =>
    obtain rfl := Except.ok.inj h
    refine ⟨q, hq, ?_⟩
    cases hentry : t.entryAt q with
    | none =>
      rw [hentry] at he
      cases he
    | some e =>
      rw [hentry] at he
      exact congrArg some (Except.ok.inj he)

/-! ### Regular trees -/

/-- Every entry lies in a directory, and so do the places that relative paths start from. -/
structure Regular (t : FileTree) : Prop where
  working : t.isDirectory t.workingDir
  parent : ∀ q ∈ t.entries.keys, t.isDirectory q.dropLast

theorem Regular.isDirectory_start (ht : t.Regular) (path : Text) : t.isDirectory (t.start path) := by
  rw [start]
  split
  · rfl
  · exact ht.working

theorem Regular.isDirectory_dropLast (ht : t.Regular) (h : (t.entryAt q).isSome) : t.isDirectory q.dropLast := by
  rw [entryAt] at h
  split at h
  · rename_i hq
    rw [hq]
    rfl
  · exact ht.parent q (OrderedMap.isSome_get?_iff.1 h)

theorem Regular.isDirectory_of_append (ht : t.Regular) {names : List Text} (hne : names ≠ [])
    (h : (t.entryAt (p ++ names)).isSome) : t.isDirectory p := by
  induction names using List.reverseRecOn with
  | nil => exact absurd rfl hne
  | append_singleton names e ih =>
    have hdir : t.isDirectory (p ++ names) := by
      have := ht.isDirectory_dropLast h
      rwa [← List.append_assoc, List.dropLast_concat] at this
    by_cases hnames : names = []
    · rwa [hnames, List.append_nil] at hdir
    · exact ih hnames (by rw [isDirectory_iff.1 hdir]; rfl)

/-- In a tree that grew, a path without detours leads to nothing old that it did not lead to before. -/
theorem Regular.follow (ht : t.Regular) (hgrows : Grows t t') (hdirect : Path.Direct es) (hp : t.isDirectory p)
    (h : t'.follow p es = .ok q) (hq : (t.entryAt q).isSome) : t.follow p es = .ok q := by
  induction es generalizing p with
  | nil => exact h
  | cons e es ih =>
    obtain ⟨hbehind, hrest⟩ := List.pairwise_cons.1 hdirect
    by_cases he : Path.isName e
    · have hq' : q = p ++ e :: es := by
        rw [← follow_toward h]
        exact Path.foldl_toward_names (List.forall_mem_cons.2 ⟨he, fun x hx => hbehind x hx he⟩) p
      rw [follow_cons_of_isName he] at h ⊢
      rw [if_neg (by simpa using hp)]
      rw [if_neg (by simpa using hgrows.directory p hp)] at h
      split at h
      · cases h
      rename_i hlong
      rw [if_neg hlong]
      split at h
      · cases h
      -- what is in the way of the entry is a directory
      have hstep : (t.entryAt (p ++ [e])).isSome ∧ (es ≠ [] → t.isDirectory (p ++ [e])) := by
        rw [hq', ← List.singleton_append, ← List.append_assoc] at hq
        by_cases hes : es = []
        · rw [hes, List.append_nil] at hq
          exact ⟨hq, fun h => absurd hes h⟩
        · have hdir := ht.isDirectory_of_append hes hq
          exact ⟨by rw [isDirectory_iff.1 hdir]; rfl, fun _ => hdir⟩
      rw [if_neg (by simpa [Option.isSome_iff_ne_none] using hstep.1)]
      by_cases hes : es = []
      · rw [hes] at h ⊢
        exact h
      · exact ih hrest (hstep.2 hes) h
    · rw [FileTree.follow, if_neg (by simpa using hp)]
      rw [FileTree.follow, if_neg (by simpa using hgrows.directory p hp)] at h
      rcases Path.isName_or e with hname | rfl | rfl | rfl
      · exact absurd hname he
      · exact ih hrest hp h
      · exact ih hrest hp h
      · exact ih hrest (ht.isDirectory_dropLast (by rw [isDirectory_iff.1 hp]; rfl)) h

/-! ### Overlays -/

/-- A place that the first elements of a path lead to, up to one of its names. -/
def OnWay (t : FileTree) (path : Text) (q : Place) : Prop := ∃ front e, Path.isName e ∧
  front ++ [e] <+: Path.elements path ∧ front.foldl Path.toward (t.start path) ++ [e] = q

theorem onWay_of_workingDir (h : t'.workingDir = t.workingDir) (path : Text) (q : Place) :
    t'.OnWay path q ↔ t.OnWay path q := by
  rw [OnWay, OnWay, start, start, h]

theorem OnWay.of_parentPath (hne : parentPath path ≠ []) (h : t.OnWay (parentPath path) q) : t.OnWay path q := by
  obtain ⟨front, e, he, hprefix, hq⟩ := h
  have habsolute : Path.isAbsolute (parentPath path) = Path.isAbsolute path := by
    obtain ⟨rest, hrest⟩ := Path.parentPath_prefix path
    rw [Path.isAbsolute, Path.isAbsolute]
    conv => rhs; rw [← hrest, List.head?_append_of_ne_nil _ hne]
  rw [start, habsolute] at hq
  exact ⟨front, e, he, Path.prefix_of_parentPath hprefix (Path.ne_nil_of_isName he), hq⟩

/-- What is on the way to the directory of a path without detours lies above the location of the path. -/
theorem OnWay.above_location (hdirect : Path.Direct (Path.elements path)) (h : t.OnWay (Path.dir path) q) :
    q <+: t.location path ∧ q ≠ t.location path := by
  obtain ⟨front, e, he, ⟨rest, hrest⟩, hq⟩ := h
  obtain ⟨u, hdir, hes, -⟩ := Path.exists_dir path
  have hdirect' : Path.Direct (front ++ e :: rest) := by
    have := Path.direct_clean u
    rwa [← hdir, ← hrest, List.append_assoc] at this
  have habove : t.location (Path.dir path) = q ++ rest := by
    rw [location, ← hrest, List.foldl_append, List.foldl_append, List.foldl_cons, List.foldl_nil, Path.toward_name he,
      hq, Path.foldl_toward_names (hdirect'.names_behind he)]
  -- the name comes from the path, so the last element of the path is a name
  obtain ⟨init, last, hpath⟩ : ∃ init last, Path.elements path = init ++ [last] :=
    ⟨_, _, (List.dropLast_append_getLast (Text.split_ne_nil _ _)).symm⟩
  rw [hpath, List.dropLast_concat] at hes
  have hmem : e ∈ init := by
    obtain ⟨skips, hskips, hclean⟩ := Path.elements_clean u
    rw [← hdir, ← hrest, hes] at hclean
    have hmem : e ∈ skips ++ Path.reduce (Path.isAbsolute u) (init ++ [[]]) := by
      rw [← hclean]
      simp
    rcases List.mem_append.1 hmem with hskip | hmem
    · rcases hskips e hskip with rfl | rfl <;> exact absurd he (by decide)
    · rcases (Path.mem_reduce hmem).2 with hmem | rfl
      · rcases List.mem_append.1 hmem with hmem | hmem
        · exact hmem
        · exact absurd (List.mem_singleton.1 hmem) (Path.ne_nil_of_isName he)
      · exact absurd he Path.not_isName_above
  have hlast : Path.isName last := by
    rw [hpath] at hdirect
    exact (List.pairwise_append.1 hdirect).2.2 e hmem last (List.mem_singleton_self _) he
  have hlocation : t.location path = q ++ (rest ++ [last]) := by
    rw [← List.append_assoc, ← habove, location_dir, location, hpath, List.dropLast_concat, List.foldl_append,
      List.foldl_cons, List.foldl_nil, Path.toward_name hlast]
  rw [hlocation]
  exact ⟨List.prefix_append .., fun h => by simp at h⟩

/-- What making directories changes: there is a new one on the way to a path. -/
structure MadeOnWay (t t' : FileTree) (path : Text) : Prop where
  extension : Extends t t'
  entry : ∀ q, t'.entryAt q = t.entryAt q ∨ t.entryAt q = none ∧ t'.isDirectory q ∧ t.OnWay path q

theorem MadeOnWay.refl (t : FileTree) (path : Text) : MadeOnWay t t path := ⟨.refl t, fun _ => .inl rfl⟩

theorem makeDir_onWay (h : t.makeDir path = .ok t') : MadeOnWay t t' path := by
  refine ⟨makeDir_extends h, fun q => ?_⟩
  obtain ⟨⟨p, name⟩, hparent, h⟩ := bind_eq_ok.1 h
  obtain ⟨_, -, hparent⟩ := bind_eq_ok.1 hparent
  obtain ⟨p', hp, hparent⟩ := bind_eq_ok.1 hparent
  split at hparent
  · cases hparent
  obtain ⟨rfl, hname⟩ := Prod.mk.inj (Except.ok.inj hparent)
  dsimp only at h
  split at h
  · cases h
  rename_i hisName
  split at h
  · cases h
  split at h
  · cases h
  rename_i hnone
  obtain rfl := Except.ok.inj h
  have hput := entryAt_put t (p := p' ++ [name]) (by simp) .directory q
  by_cases hq : q = p' ++ [name]
  · rw [if_pos hq] at hput
    refine .inr ⟨by simpa [hq] using hnone, isDirectory_iff.2 hput, ?_⟩
    obtain ⟨init, last, hes⟩ : ∃ init last, Path.elements (Text.trimEndWhile (· == Path.slash) path) = init ++ [last] :=
      ⟨_, _, (List.dropLast_append_getLast (Text.split_ne_nil _ _)).symm⟩
    rw [hes, List.dropLast_concat] at hp
    rw [hes, List.getLast?_concat, Option.getD_some] at hname
    subst hname
    refine ⟨init, last, by simpa using hisName, hes ▸ Path.elements_trim_prefix path, ?_⟩
    rw [follow_toward hp, hq]
  · rw [if_neg hq] at hput
    exact .inl hput

theorem tryDir_onWay (t : FileTree) (path : Text) : MadeOnWay t (t.tryDir path).1 path := by
  rw [tryDir]
  cases hmade : t.makeDir path with
  | error cause => exact .refl t path
  | ok made => exact makeDir_onWay hmade

theorem MadeOnWay.then (h : MadeOnWay t t' (parentPath path)) (hne : parentPath path ≠ [])
    (h' : MadeOnWay t' t'' path) : MadeOnWay t t'' path where
  extension := h.extension.trans h'.extension
  entry q := by
    rcases h'.entry q with hsame' | ⟨hnone', hdir', hway'⟩
    · rcases h.entry q with hsame | ⟨hnone, hdir, hfirst⟩
      · exact .inl (hsame'.trans hsame)
      · refine .inr ⟨hnone, ?_, hfirst.of_parentPath hne⟩
        rw [isDirectory_iff, hsame', ← isDirectory_iff]
        exact hdir
    · rcases h.entry q with hsame | ⟨-, hdir, -⟩
      · exact .inr ⟨hsame ▸ hnone', hdir', (onWay_of_workingDir h.extension.workingDir path q).1 hway'⟩
      · cases hnone'.symm.trans (isDirectory_iff.1 hdir)

theorem tryDirs_onWay (t : FileTree) (path : Text) : MadeOnWay t (t.tryDirs path).1 path := by
  fun_induction t.tryDirs path with
  | case1 path hlook => exact .refl t path
  | case2 path content hlook => exact .refl t path
  | case3 path e hlook hparent => exact tryDir_onWay t path
  | case4 path e hlook hparent hshorter made f hrest ih =>
    rw [hrest] at ih
    exact ih.then hparent (.refl made path)
  | case5 path e hlook hparent hshorter made u hrest ih =>
    rw [hrest] at ih
    exact ih.then hparent (tryDir_onWay made path)

/-- What writing outputs changes: each entry is as it was, or lies at the location of an output, or is a new directory
above one. -/
structure Overlay (t t' : FileTree) (outputs : List Text) : Prop where
  grows : Grows t t'
  entry : ∀ q, t'.entryAt q = t.entryAt q ∨ (∃ path ∈ outputs, t.location path = q) ∨
    t.entryAt q = none ∧ t'.isDirectory q ∧ ∃ path ∈ outputs, q <+: t.location path ∧ q ≠ t.location path

theorem Overlay.refl (t : FileTree) (outputs : List Text) : Overlay t t outputs := ⟨.refl t, fun _ => .inl rfl⟩

theorem Overlay.mono {outputs outputs' : List Text} (h : Overlay t t' outputs) (hsub : outputs ⊆ outputs') :
    Overlay t t' outputs' where
  grows := h.grows
  entry q := by
    rcases h.entry q with hsame | ⟨path, hmem, hpath⟩ | ⟨hnone, hdir, path, hmem, habove⟩
    · exact .inl hsame
    · exact .inr (.inl ⟨path, hsub hmem, hpath⟩)
    · exact .inr (.inr ⟨hnone, hdir, path, hsub hmem, habove⟩)

theorem Overlay.trans {outputs outputs' : List Text} (h : Overlay t t' outputs) (h' : Overlay t' t'' outputs') :
    Overlay t t'' (outputs ++ outputs') where
  grows := h.grows.trans h'.grows
  entry q := by
    have hlocation := location_of_workingDir h.grows.workingDir
    rcases h'.entry q with hsame' | ⟨path, hmem, hpath⟩ | ⟨hnone', hdir', path, hmem, habove⟩
    · rcases h.entry q with hsame | ⟨path, hmem, hpath⟩ | ⟨hnone, hdir, path, hmem, habove⟩
      · exact .inl (hsame'.trans hsame)
      · exact .inr (.inl ⟨path, List.mem_append_left _ hmem, hpath⟩)
      · refine .inr (.inr ⟨hnone, ?_, path, List.mem_append_left _ hmem, habove⟩)
        rw [isDirectory_iff, hsame', ← isDirectory_iff]
        exact hdir
    · exact .inr (.inl ⟨path, List.mem_append_right _ hmem, hlocation path ▸ hpath⟩)
    · rcases h.entry q with hsame | ⟨path, hmem, hpath⟩ | ⟨hnone, hdir, -⟩
      · rw [hlocation] at habove
        exact .inr (.inr ⟨hsame ▸ hnone', hdir', path, List.mem_append_right _ hmem, habove⟩)
      · exact .inr (.inl ⟨path, List.mem_append_left _ hmem, hpath⟩)
      · cases hnone'.symm.trans (isDirectory_iff.1 hdir)

theorem tryDirs_overlay (t : FileTree) (hdirect : Path.Direct (Path.elements path)) :
    Overlay t (t.tryDirs (Path.dir path)).1 [path] where
  grows := (tryDirs_extends t _).grows
  entry q := by
    rcases (tryDirs_onWay t (Path.dir path)).entry q with hsame | ⟨hnone, hdir, hway⟩
    · exact .inl hsame
    · exact .inr (.inr ⟨hnone, hdir, path, List.mem_singleton_self _, hway.above_location hdirect⟩)

theorem write_overlay (h : t.write path content = .ok t') : Overlay t t' [path] := by
  obtain ⟨q, hne, hfile, rfl, hq⟩ := write_spec h
  have hgrows := grows_put_file hne hfile content
  refine ⟨hgrows, fun q' => ?_⟩
  rw [entryAt_put t hne]
  split
  · rename_i heq
    refine .inr (.inl ⟨path, List.mem_singleton_self _, ?_⟩)
    rw [heq, ← resolve_location hq, location_of_workingDir hgrows.workingDir]
  · exact .inl rfl

/-- A file that is not at the location of an output is read as before; what cannot be read before cannot be read
afterwards. -/
theorem Overlay.read {outputs : List Text} (h : Overlay t t' outputs) (ht : t.Regular)
    (hdirect : Path.Direct (Path.elements path)) (hother : ∀ o ∈ outputs, t.location o ≠ t.location path) :
    t'.read path = .ok content ↔ t.read path = .ok content := by
  rw [read_eq_ok, read_eq_ok]
  constructor
  · rintro ⟨q, hq, hfile⟩
    have hplace : t.location path = q := location_of_workingDir h.grows.workingDir path ▸ resolve_location hq
    have hfile' : t.entryAt q = some (.file content) := by
      rcases h.entry q with hsame | ⟨o, ho, hout⟩ | ⟨-, hdir, -⟩
      · exact hsame ▸ hfile
      · exact absurd (hout.trans hplace.symm) (hother o ho)
      · cases hfile.symm.trans (isDirectory_iff.1 hdir)
    obtain ⟨hcheck, hfollow⟩ := resolve_eq_ok.1 hq
    rw [h.grows.start] at hfollow
    have hback := ht.follow h.grows hdirect (ht.isDirectory_start path) hfollow (by rw [hfile']; rfl)
    exact ⟨q, resolve_eq_ok.2 ⟨hcheck, hback⟩, hfile'⟩
  · rintro ⟨q, hq, hfile⟩
    refine ⟨q, h.grows.resolve hq, ?_⟩
    rcases h.entry q with hsame | ⟨o, ho, hout⟩ | ⟨hnone, -⟩
    · exact hsame.trans hfile
    · exact absurd (hout.trans (resolve_location hq).symm) (hother o ho)
    · cases hnone.symm.trans hfile

end FileTree

end MeaningForest
