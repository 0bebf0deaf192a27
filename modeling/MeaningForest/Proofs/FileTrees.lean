import MeaningForest.FileTree
import MeaningForest.Proofs.Faultless
import MeaningForest.Proofs.Paths

/-!
# Writing files

Making directories and writing files leaves every directory in its place (`FileTree.Grows`), so a path leads where it
led before.  A written file is what its path leads to, and nothing else that was there changes (`FileTree.write_spec`).
-/

namespace MeaningForest.FileTree

variable {t t' t'' : FileTree} {p q : Place} {path content : Text}

/-! ### Growth -/

/-- Entries stay in their places, directories as directories. -/
structure Grows (t t' : FileTree) : Prop where
  workingDir : t'.workingDir = t.workingDir
  directory : ∀ q, t.isDirectory q → t'.isDirectory q
  entry : ∀ q, (t.entryAt q).isSome → (t'.entryAt q).isSome

theorem Grows.refl (t : FileTree) : Grows t t := ⟨rfl, fun _ h => h, fun _ h => h⟩

theorem Grows.trans (h : Grows t t') (h' : Grows t' t'') : Grows t t'' :=
  ⟨h'.workingDir.trans h.workingDir, fun q hq => h'.directory q (h.directory q hq),
    fun q hq => h'.entry q (h.entry q hq)⟩

/-- Entries stay as they are. -/
structure Extends (t t' : FileTree) : Prop where
  workingDir : t'.workingDir = t.workingDir
  entry : ∀ q e, t.entryAt q = some e → t'.entryAt q = some e

theorem Extends.refl (t : FileTree) : Extends t t := ⟨rfl, fun _ _ h => h⟩

theorem Extends.trans (h : Extends t t') (h' : Extends t' t'') : Extends t t'' :=
  ⟨h'.workingDir.trans h.workingDir, fun q e hq => h'.entry q e (h.entry q e hq)⟩

theorem isDirectory_iff : t.isDirectory q ↔ t.entryAt q = some .directory := by simp [isDirectory]

theorem Extends.grows (h : Extends t t') : Grows t t' where
  workingDir := h.workingDir
  directory q hq := isDirectory_iff.2 (h.entry q _ (isDirectory_iff.1 hq))
  entry q hq := by
    obtain ⟨e, he⟩ := Option.isSome_iff_exists.1 hq
    rw [h.entry q e he]
    rfl

/-- A new directory where nothing was. -/
theorem extends_put (hp : p ≠ []) (hnone : t.entryAt p = none) (e : Entry) : Extends t (t.put p e) where
  workingDir := rfl
  entry q e' hq := by
    rw [entryAt_put t hp, if_neg]
    · exact hq
    · rintro rfl
      cases hnone.symm.trans hq

/-- A file where no directory was. -/
theorem grows_put_file (hp : p ≠ []) (hfile : t.isDirectory p = false) (content : Text) :
    Grows t (t.put p (.file content)) where
  workingDir := rfl
  directory q hq := by
    rw [isDirectory_iff, entryAt_put t hp, if_neg]
    · exact isDirectory_iff.1 hq
    · rintro rfl
      cases hfile.symm.trans hq
  entry q hq := by
    rw [entryAt_put t hp]
    split
    · rfl
    · exact hq

/-! ### Following paths -/

theorem follow_append (p : Place) (es es' : List Text) :
    t.follow p (es ++ es') = (t.follow p es).bind fun q => t.follow q es' := by
  induction es generalizing p with
  | nil => rfl
  | cons e es ih =>
    rw [List.cons_append, follow, follow]
    split
    · rfl
    · split
      · exact ih p
      · split
        · exact ih p.dropLast
        · split
          · rfl
          · split
            · rfl
            · exact ih _

theorem follow_cons_of_isName {e : Text} (he : Path.isName e) (p : Place) (es : List Text) :
    t.follow p (e :: es) = if !t.isDirectory p then .error .notDirectory
      else if maxNameLength < e.length then .error .nameTooLong
      else if (t.entryAt (p ++ [e])).isNone then .error .missing
      else t.follow (p ++ [e]) es := by
  simp only [Path.isName, Bool.and_eq_true, Bool.not_eq_true', bne_iff_ne, ne_eq] at he
  have hskip : ¬ (e.isEmpty || e == Path.here) = true := by simp [he.1.1, he.1.2]
  have habove : ¬ (e == Path.above) = true := by simp [he.2]
  rw [follow, if_neg hskip, if_neg habove]

theorem follow_names {es : List Text} (h : ∀ e ∈ es, Path.isName e) (hq : t.follow p es = .ok q) : q = p ++ es := by
  induction es generalizing p with
  | nil =>
    obtain rfl := Except.ok.inj hq
    exact (List.append_nil _).symm
  | cons e es ih =>
    rw [follow_cons_of_isName (h e (List.mem_cons_self ..))] at hq
    split at hq
    · cases hq
    · split at hq
      · cases hq
      · split at hq
        · cases hq
        · rw [ih (fun x hx => h x (List.mem_cons_of_mem _ hx)) hq, List.append_assoc]
          rfl

theorem Grows.follow (h : Grows t t') {es : List Text} (hq : t.follow p es = .ok q) : t'.follow p es = .ok q := by
  induction es generalizing p with
  | nil => exact hq
  | cons e es ih =>
    rw [FileTree.follow] at hq ⊢
    split at hq
    · cases hq
    · rename_i hdir
      have hdir' : ¬ (!t'.isDirectory p) = true := by simpa using h.directory p (by simpa using hdir)
      rw [if_neg hdir']
      split
      · rename_i hskip
        rw [if_pos hskip] at hq
        exact ih hq
      · rename_i hskip
        rw [if_neg hskip] at hq
        split
        · rename_i habove
          rw [if_pos habove] at hq
          exact ih hq
        · rename_i habove
          rw [if_neg habove] at hq
          split at hq
          · cases hq
          · rename_i hlong
            rw [if_neg hlong]
            split at hq
            · cases hq
            · rename_i hsome
              have hsome' := h.entry (p ++ [e]) (by simpa [Option.isSome_iff_ne_none] using hsome)
              rw [if_neg (by simpa [Option.isSome_iff_ne_none] using hsome')]
              exact ih hq

theorem resolve_eq_ok : t.resolve path = .ok q ↔
    checkPath path = .ok () ∧ t.follow (t.start path) (Path.elements path) = .ok q := by
  rw [resolve]
  cases checkPath path with
  | error e => exact iff_of_false (by rintro ⟨⟩) (by rintro ⟨⟨⟩, -⟩)
  | ok u => exact (and_iff_right rfl).symm

theorem Grows.start (h : Grows t t') (path : Text) : t'.start path = t.start path := by
  rw [FileTree.start, FileTree.start, h.workingDir]

theorem Grows.resolve (h : Grows t t') (hq : t.resolve path = .ok q) : t'.resolve path = .ok q := by
  rw [resolve_eq_ok] at hq ⊢
  exact ⟨hq.1, by rw [h.start]; exact h.follow hq.2⟩

/-- A path of names leads below the directory it is joined to. -/
theorem resolve_join {dir f : Text} (hf : Path.Named f) (hq : t.resolve (Path.join dir f) = .ok q) :
    ∃ p, t.follow (t.start dir) (Path.lead dir) = .ok p ∧ q = p ++ Path.elements f := by
  have hfollow := (resolve_eq_ok.1 hq).2
  have hstart : t.start (Path.join dir f) = t.start dir := by rw [start, start, Path.isAbsolute_join dir hf]
  rw [Path.elements_join dir hf, hstart, follow_append] at hfollow
  cases hp : t.follow (t.start dir) (Path.lead dir) with
  | error e =>
    rw [hp] at hfollow
    cases hfollow
  | ok p =>
    rw [hp] at hfollow
    exact ⟨p, rfl, follow_names hf hfollow⟩

/-- Different paths of names lead to different places. -/
theorem resolve_join_ne {dir f g : Text} {q' : Place} (hf : Path.Named f) (hg : Path.Named g) (hne : f ≠ g)
    (hq : t.resolve (Path.join dir f) = .ok q) (hq' : t.resolve (Path.join dir g) = .ok q') : q ≠ q' := by
  obtain ⟨p, hp, rfl⟩ := resolve_join hf hq
  obtain ⟨p', hp', rfl⟩ := resolve_join hg hq'
  obtain rfl := Except.ok.inj (hp.symm.trans hp')
  exact fun h => hne (Text.split_injective _ (List.append_cancel_left h))

/-! ### Directories and files -/

theorem of_eq_ok {α : Type} {operation path : Text} {r : Except FileCause α} {a : α} :
    FileFault.of operation path r = .ok a ↔ r = .ok a := by
  cases r with
  | error e => exact iff_of_false (by rintro ⟨⟩) (by rintro ⟨⟩)
  | ok b =>
    exact Iff.intro (fun h => congrArg Except.ok (Except.ok.inj h)) fun h => congrArg Except.ok (Except.ok.inj h)

theorem makeDir_extends (h : t.makeDir path = .ok t') : Extends t t' := by
  obtain ⟨⟨p, name⟩, -, h⟩ := bind_eq_ok.1 h
  dsimp only at h
  split at h
  · cases h
  · split at h
    · cases h
    · split at h
      · cases h
      · rename_i hnone
        obtain rfl := Except.ok.inj h
        exact extends_put (by simp) (by simpa using hnone) _

theorem tryDir_extends (t : FileTree) (path : Text) : Extends t (t.tryDir path).1 := by
  rw [tryDir]
  cases hmade : t.makeDir path with
  | error cause => exact .refl t
  | ok made => exact makeDir_extends hmade

theorem tryDirs_extends (t : FileTree) (path : Text) : Extends t (t.tryDirs path).1 := by
  fun_induction t.tryDirs path with
  | case1 path hlook => exact .refl t
  | case2 path content hlook => exact .refl t
  | case3 path e hlook hparent => exact tryDir_extends t path
  | case4 path e hlook hparent hshorter made f hrest ih => exact hrest ▸ ih
  | case5 path e hlook hparent hshorter made u hrest ih =>
    rw [hrest] at ih
    exact ih.trans (tryDir_extends made path)

theorem tryDirs_of_makeDirs (h : t.makeDirs path = .ok t') : (t.tryDirs path).1 = t' := by
  rw [makeDirs] at h
  split at h
  · rename_i made u hmade
    rw [hmade]
    exact Except.ok.inj h
  · cases h

theorem makeDirs_extends (h : t.makeDirs path = .ok t') : Extends t t' :=
  tryDirs_of_makeDirs h ▸ tryDirs_extends t path

/-- A file that was written is what its path leads to. -/
theorem write_spec (h : t.write path content = .ok t') : ∃ q, q ≠ [] ∧ t.isDirectory q = false ∧
    t' = t.put q (.file content) ∧ t'.resolve path = .ok q := by
  obtain ⟨_, hcheck, h⟩ := bind_eq_ok.1 (of_eq_ok.1 h)
  obtain ⟨front, last, hes⟩ : ∃ front last, Path.elements path = front ++ [last] :=
    ⟨_, _, (List.dropLast_append_getLast (Text.split_ne_nil _ _)).symm⟩
  rw [hes] at h
  dsimp only at h
  rw [List.getLast?_concat, Option.getD_some, List.dropLast_concat] at h
  split at h
  · obtain ⟨_, -, h⟩ := bind_eq_ok.1 h
    cases h
  · obtain ⟨p, hp, h⟩ := bind_eq_ok.1 h
    split at h
    · cases h
    rename_i hdir
    split at h
    · cases h
    rename_i hname
    split at h
    · cases h
    rename_i hlong
    split at h
    · cases h
    rename_i hfile
    obtain rfl := Except.ok.inj h
    have hne : p ++ [last] ≠ [] := by simp
    have hfile' : t.isDirectory (p ++ [last]) = false := by simpa using hfile
    have hgrows := grows_put_file hne hfile' content
    refine ⟨p ++ [last], hne, hfile', rfl, resolve_eq_ok.2 ⟨hcheck, ?_⟩⟩
    rw [hgrows.start, hes, follow_append, hgrows.follow hp]
    -- the last element is a name that is in its directory now
    have hdir' := hgrows.directory p (by simpa using hdir)
    have hentry : ((t.put (p ++ [last]) (.file content)).entryAt (p ++ [last])).isNone = false := by
      rw [entryAt_put t hne, if_pos rfl]
      rfl
    show (t.put (p ++ [last]) (.file content)).follow p [last] = _
    rw [follow_cons_of_isName (by simpa using hname), if_neg (by simp [hdir']), if_neg hlong, if_neg (by simp [hentry])]
    rfl

theorem read_of_resolve (hq : t.resolve path = .ok q) (hfile : t.entryAt q = some (.file content)) :
    t.read path = .ok content := by
  have hlook : t.look path = .ok (.file content) := by
    rw [look, hq]
    dsimp only [bind, Except.bind]
    rw [hfile]
  rw [read, hlook]
  rfl

end MeaningForest.FileTree
