import MeaningForest.Proofs.Blocks
import MeaningForest.Proofs.Generation
import MeaningForest.Proofs.Worded

/-!
# Execution of dispatch blocks

A block is run on an object, given the ancestry of its meaning (`Code.Block.run`).  A downcast is a method of the handle
type of the parent only, and it succeeds for the meanings of the ancestry.  The block for a tree of overrides whose
nodes go down from parent to child calls what the tree resolves to along the ancestry (`run_ofTree`).  The tree of a
method of an analysis is such a tree (`Complete.downward_overrideTree`), and along an ancestry it resolves to the last
override (`Chain.resolve_overrideTree`).
-/

namespace MeaningForest

open Code

variable {lang : Language}

/-! ### Names of narrowed objects -/

/-- The variable for an object that was narrowed along a path. -/
def narrowedName (params path : List Text) : Text := (dispatchNames params path).getLast?.getD []

theorem exists_narrowedName (params path : List Text) (m : Text) :
    ∃ s, narrowedName params (path ++ [m]) = dispatchName m ++ s := by
  induction path generalizing params with
  | nil => exact exists_freeName _ _
  | cons k path ih =>
    obtain ⟨s, hs⟩ := ih (params ++ [freeName (dispatchName k) params])
    refine ⟨s, ?_⟩
    rw [← hs, narrowedName, narrowedName, List.cons_append, dispatchNames]
    cases path <;> simp [dispatchNames]

theorem narrowedName_ne_flag (params path taken : List Text) (m : Text) :
    narrowedName params (path ++ [m]) ≠ freeName "ok" taken := by
  obtain ⟨s, hs⟩ := exists_narrowedName params path m
  obtain ⟨s', hs'⟩ := exists_freeName "ok" taken
  rw [hs, hs', dispatchName]
  exact fun h => absurd (List.cons.inj h).1 (by decide)

theorem isWord_narrowedName (params : List Text) {path : List Text} (h : ∀ m ∈ path, Text.IsWord m) :
    Text.IsWord (narrowedName params path) := by
  rw [narrowedName]
  cases hlast : (dispatchNames params path).getLast? with
  | none => exact Text.isWord_nil
  | some v => exact isWord_of_mem_dispatchNames h (List.mem_of_getLast? hlast)

/-! ### Execution -/

namespace Code.Dispatch

variable {downcast? : Text → Text → Option Text} {asc : List Text}

/-- The call of an override is made on what its receiver holds, and leaves the method. -/
theorem run_leave (scope : List (Text × Block.Holding)) (c : OverrideCall) :
    (leave c).block.run downcast? asc scope =
      match scope.lookup c.receiver with
      | some (.handle m) => some ⟨[(m, c.methodCall)], c.statements.map (·.text), false⟩
      | _ => none := by
  have hreceiver : c.methodCall.receiver = c.receiver := rfl
  rw [block, OverrideCall.statements]
  rcases hlookup : scope.lookup c.receiver with _ | m | _ <;> split <;>
    simp [Block.ofStatements, Block.run, Block.Outcome.andThen, Statement.text, hreceiver, hlookup]

theorem run_thenLeave (scope : List (Text × Block.Holding)) (call : Option OverrideCall) (d : Dispatch) :
    (d.thenLeave call).block.run downcast? asc scope =
      Block.Outcome.andThen (d.block.run downcast? asc scope)
        ((done.thenLeave call).block.run downcast? asc scope) := by
  induction d with
  | done => exact (Block.Outcome.andThen_falls _).symm
  | narrow var flag object target body rest _ ih =>
    simp only [thenLeave, block, Block.run]
    split
    · split
      · split
        · rfl
        · split
          · rw [ih, Block.Outcome.andThen_assoc]
            rfl
          · exact ih
      · rfl
    · rfl
  | leave c =>
    rw [thenLeave, run_leave]
    split <;> rfl

end Code.Dispatch

/-! ### Trees that go down from parent to child -/

namespace OverrideTree

variable {γ : Type} {parent : Text → Option Text}

/-- The nodes at the top are different children of `m`, and below a node are trees of its own children. -/
def Downward (parent : Text → Option Text) (m : Text) : OverrideTree Text γ → Prop
  | nil => True
  | node key _ below rest =>
    parent key = some m ∧ rest.get? key = none ∧ Downward parent key below ∧ Downward parent m rest

theorem downward_chain (code : γ) {m k : Text} {path : List Text}
    (h : (m :: k :: path).IsChain fun a b => parent b = some a) : (chain code k path).Downward parent m := by
  induction path generalizing m k with
  | nil => exact ⟨by simpa using h, rfl, trivial, trivial⟩
  | cons j path ih =>
    rw [List.isChain_cons_cons] at h
    exact ⟨h.1, rfl, ih h.2, trivial⟩

/-- Registering along a way down keeps a tree in order. -/
theorem Downward.register {t : OverrideTree Text γ} {m : Text} (ht : t.Downward parent m) (code : γ) {k : Text}
    {path : List Text} (h : (m :: k :: path).IsChain fun a b => parent b = some a) :
    (t.register code k path).Downward parent m := by
  induction t generalizing m k path with
  | nil => exact downward_chain code h
  | node key held below rest ihb ihr =>
    obtain ⟨hkey, hnew, hbelow, hrest⟩ := ht
    rw [OverrideTree.register.eq_def]
    by_cases hk : key = k
    · subst hk
      cases path with
      | nil => simpa using ⟨hkey, hnew, hbelow, hrest⟩
      | cons j path =>
        rw [List.isChain_cons_cons] at h
        simpa using ⟨hkey, hnew, ihb hbelow h.2, hrest⟩
    · have hnew' : (rest.register code k path).get? key = none := by
        rw [get?_register_ne code path (Ne.symm hk), hnew]
      simpa [hk] using ⟨hkey, hnew', hbelow, ihr hrest h⟩

end OverrideTree

namespace Code.Dispatch

variable {parent : Text → Option Text} {asc : List Text}

/-- The outcome for what a tree resolves to. -/
def outcome : Option OverrideCall → Block.Outcome
  | none => { falls := true }
  | some c => ⟨[(c.meaning, c.methodCall)], c.statements.map (·.text), false⟩

/-- The calls of a tree whose root is reached along a path are made on the narrowed object. -/
def Fits (params path : List Text) (t : OverrideTree Text OverrideCall) : Prop :=
  ∀ q c, t.codeAt q = some c →
    c.receiver = narrowedName params (path ++ q) ∧ (path ++ q).getLast? = some c.meaning

/-- The block of a tree calls the override that the tree resolves to along the rest of the ancestry, if every child has
a downcast on the handle type of its parent. -/
theorem run_ofTree {downcast? : Text → Text → Option Text}
    (hdown : ∀ m sub, parent sub = some m → downcast? m (downcastName sub) = some sub) {d : Text}
    (hasc : Lineage parent d asc) {params path : List Text} {m object : Text} {u v : List Text}
    (hsplit : asc = u ++ m :: v) {t : OverrideTree Text OverrideCall} (ht : t.Downward parent m)
    (hfits : Fits params path t) {scope : List (Text × Block.Holding)}
    (hobject : scope.lookup object = some (.handle m)) :
    (ofTree params object path t).block.run downcast? asc scope = some (outcome (t.resolve v)) := by
  -- below a node the object is narrowed to that node; beside it the object and the ancestry stay the same
  induction t generalizing m object path u v scope with
  | nil => cases v <;> rfl
  | node sub call below rest ihb ihr =>
    obtain ⟨hsub, hnew, hbelow, hrest⟩ := ht
    have hvar : narrowedName params (path ++ [sub]) ≠ freeName "ok" params := narrowedName_ne_flag _ _ _ _
    have hfitsRest : Fits params path rest := by
      intro q c hc
      cases q with
      | nil => cases hc
      | cons k q =>
        by_cases hk : sub = k
        · rw [← hk, OverrideTree.codeAt_of_get?_eq_none hnew] at hc
          cases hc
        · exact hfits (k :: q) c (by
            rw [← hc]; exact OverrideTree.codeAt_congr (by rw [OverrideTree.get?_node, if_neg hk]) q)
    have hget : (OverrideTree.node sub call below rest).get? sub = some (call, below) := by
      rw [OverrideTree.get?_node, if_pos rfl]
    rw [ofTree, block, Block.run, hobject, ← narrowedName]
    simp only
    rw [hdown m sub hsub]
    simp only
    rw [if_neg hvar]
    have hrun := ihr hsplit hrest hfitsRest hobject
    by_cases hmem : sub ∈ asc
    · obtain ⟨w, rfl⟩ := (hsplit ▸ hasc).next_of_mem hsub (hsplit ▸ hmem)
      have hfitsBelow : Fits params (path ++ [sub]) below := by
        intro q c hc
        cases q with
        | nil => cases hc
        | cons k q =>
          have := hfits (sub :: k :: q) c (by rw [OverrideTree.codeAt_of_get? hget]; exact hc)
          simpa using this
      have hbody : (ofTree params (narrowedName params (path ++ [sub])) (path ++ [sub]) below).block.run downcast? asc
          ((narrowedName params (path ++ [sub]), .handle sub) :: (freeName "ok" params, .flag) :: scope) =
            some (outcome (below.resolve w)) :=
        ihb (u := u ++ [m]) (v := w) (by simp [hsplit]) hbelow hfitsBelow List.lookup_cons_self
      have hskip : rest.resolve (sub :: w) = none := by rw [OverrideTree.resolve, hnew]
      rw [if_pos hmem, run_thenLeave, hbody, hrun, hskip, OverrideTree.resolve, hget]
      simp only
      cases hb : below.resolve w with
      | some c => rfl
      | none =>
        cases call with
        | none => rfl
        | some c =>
          obtain ⟨hreceiver, hmeaning⟩ := hfits [sub] c (by rw [OverrideTree.codeAt_of_get? hget]; rfl)
          obtain rfl : sub = c.meaning := by simpa using hmeaning
          simp only [thenLeave, run_leave, hreceiver, List.lookup_cons_self, outcome,
            Block.Outcome.andThen_falls, Option.none_or]
          rfl
    · rw [if_neg hmem, hrun]
      cases v with
      | nil => rfl
      | cons k w =>
        have hk : sub ≠ k := by
          rintro rfl
          exact hmem (by simp [hsplit])
        rw [OverrideTree.resolve, OverrideTree.resolve, OverrideTree.get?_node, if_neg hk]

end Code.Dispatch

/-! ### The tree of a method -/

namespace Analysis

variable {a : Analysis} {asc : List Text} {ps : List Profile}

theorem Complete.exists_of_codeAt (ha : a.Complete) {owner n : Text} {t : OverrideTree Text OverrideCall}
    (ht : a.overrideTree owner n = .ok t) {q : List Text} {c : OverrideCall} (hc : t.codeAt q = some c) :
    ∃ o ∈ a.overridesOf owner n, o.path = q ∧ o.call = c := by
  obtain ⟨t', ht', hcode⟩ := ha.exists_overrideTree owner n
  rw [ht] at ht'
  cases ht'
  rw [hcode, Option.map_eq_some_iff] at hc
  obtain ⟨o, ho, hoc⟩ := hc
  obtain ⟨hmem, hpath⟩ := List.mem_filter.1 (List.mem_of_getLast? ho)
  exact ⟨o, hmem, by simpa using hpath, hoc⟩

theorem Complete.downward_overrideTree (ha : a.Complete) {owner n : Text} {t : OverrideTree Text OverrideCall}
    (ht : a.overrideTree owner n = .ok t) : t.Downward a.forest.parent? owner := by
  -- the overrides are registered one after the other
  have hrun : ∀ (os : List Override), (∀ o ∈ os, o ∈ a.overridesOf owner n) → ∀ t t',
      OverrideTree.Downward a.forest.parent? owner t → os.foldlM Override.addTo t = .ok t' →
        t'.Downward a.forest.parent? owner := by
    intro os hos
    induction os with
    | nil =>
      rintro t t' hdown h
      cases h
      exact hdown
    | cons o os ih =>
      intro t t' hdown h
      obtain ⟨p, hp, hop, howner, -⟩ := mem_overridesOf.1 (hos o (by simp))
      obtain ⟨q, -, -, hq, -, hpath, -⟩ := ha.override_spec hp hop
      rw [← hq, howner] at hpath
      rw [List.foldlM_cons] at h
      obtain ⟨t₁, hadd, h⟩ := bind_eq_ok.1 h
      refine ih (fun x hx => hos x (by simp [hx])) t₁ t' ?_ h
      rw [Override.addTo] at hadd
      cases hk : o.path with
      | nil => rw [hk] at hadd; cases hadd
      | cons k path =>
        rw [hk] at hadd hpath
        cases hadd
        exact hdown.register _ hpath
  exact hrun _ (fun _ h => h) .nil t trivial ht

/-- The code in the tree of a method of a profile is the call of an override that has this method as its base. -/
theorem Complete.exists_override_of_codeAt (ha : a.Complete) {q : Profile} (hq : q ∈ a.profiles) {f : Method}
    (hf : f ∈ q.methods) {t : OverrideTree Text OverrideCall} (ht : a.overrideTree q.name f.name = .ok t)
    {path : List Text} {c : OverrideCall} (hc : t.codeAt path = some c) :
    ∃ p ∈ a.profiles, ∃ o ∈ p.overrides, o.base = f ∧ o.path = path ∧ o.path.getLast? = some p.name ∧ o.call = c := by
  obtain ⟨o, ho, rfl, rfl⟩ := ha.exists_of_codeAt ht hc
  obtain ⟨p, hp, hop, howner, hname⟩ := mem_overridesOf.1 ho
  obtain ⟨r, hr, hbase, hrowner, -, -, hlast⟩ := ha.override_spec hp hop
  -- the base is the method itself, since both are methods of `q` with one name
  obtain rfl := ha.profile_unique hr hq (hrowner.symm.trans howner)
  obtain ⟨asc, us, -, hchain⟩ := ha.exists_chain_of_mem hr
  obtain rfl : o.base = f := List.inj_on_of_nodup_map (hchain.consistent rfl).methods_nodup hbase hf hname
  exact ⟨p, hp, o, hop, rfl, rfl, hlast, rfl⟩

theorem Complete.fits_overrideTree (ha : a.Complete) {q : Profile} (hq : q ∈ a.profiles) {f : Method}
    (hf : f ∈ q.methods) {t : OverrideTree Text OverrideCall} (ht : a.overrideTree q.name f.name = .ok t) :
    Dispatch.Fits f.params.names [] t := by
  intro path c hc
  obtain ⟨p, -, o, -, rfl, rfl, hlast, rfl⟩ := ha.exists_override_of_codeAt hq hf ht hc
  exact ⟨rfl, by simp [Override.call, hlast]⟩

/-- Along an ancestry the tree of a method resolves to the last override below the meaning that defines it. -/
theorem Chain.resolve_overrideTree (h : a.Chain asc ps) (ha : a.Complete) (hnd : asc.Nodup) {us vs : List Profile}
    {q : Profile} (hps : ps = us ++ q :: vs) {f : Method} (hf : f ∈ q.methods)
    {t : OverrideTree Text OverrideCall} (ht : a.overrideTree q.name f.name = .ok t) :
    t.resolve (vs.map (·.name)) = (vs.filterMap fun p => (p.overrideOf? f.name).map Override.call).getLast? := by
  have hcodes : ∀ ws rest, vs = ws ++ rest → (ws.map (·.name)).inits.filterMap t.codeAt =
      ws.filterMap fun p => (p.overrideOf? f.name).map Override.call := by
    intro ws
    induction ws using List.reverseRecOn with
    | nil => intro _ _; simp
    | append_singleton ws p ih =>
      intro rest hvs
      have hcode := h.codeAt_overrideTree ha hnd (by simp [hps, hvs] : ps = us ++ q :: (ws ++ p :: rest)) hf ht
      rw [List.map_append] at hcode ⊢
      simp only [List.map_cons, List.map_nil] at hcode ⊢
      rw [List.inits_append, List.filterMap_append, ih (p :: rest) (by simp [hvs]), List.filterMap_append]
      have hinits : [p.name].inits = [[], [p.name]] := rfl
      rw [hinits, List.tail_cons, List.map_singleton, List.filterMap_cons, hcode]
      rfl
  rw [OverrideTree.resolve_eq_getLast?, hcodes vs [] (by simp)]

/-- The last element with a value has the last value. -/
private theorem getLast?_filterMap {α β : Type} (g : α → Option β) (l : List α) :
    (l.filterMap g).getLast? = ((l.filter fun x => (g x).isSome).getLast?).bind g := by
  induction l using List.reverseRecOn with
  | nil => rfl
  | append_singleton l x ih =>
    rw [List.filterMap_append, List.filter_append]
    cases hx : g x with
    | none => simpa [hx] using ih
    | some y => simp [hx]

/-- Either no meaning below the owner overrides the method, or the tree resolves to the call of the last one. -/
theorem Chain.resolve_cases (h : a.Chain asc ps) (ha : a.Complete) (hnd : asc.Nodup) {us vs : List Profile}
    {q : Profile} (hps : ps = us ++ q :: vs) {f : Method} (hf : f ∈ q.methods)
    {t : OverrideTree Text OverrideCall} (ht : a.overrideTree q.name f.name = .ok t) :
    ((vs.filter fun p => (p.overrideOf? f.name).isSome).getLast? = none ∧ t.resolve (vs.map (·.name)) = none) ∨
      ∃ p ∈ vs, ∃ o ∈ p.overrides, o.decl.name = f.name ∧
        (vs.filter fun p => (p.overrideOf? f.name).isSome).getLast? = some p ∧
        t.resolve (vs.map (·.name)) = some o.call := by
  rw [h.resolve_overrideTree ha hnd hps hf ht, getLast?_filterMap]
  simp only [Option.isSome_map]
  cases hl : (vs.filter fun p => (p.overrideOf? f.name).isSome).getLast? with
  | none => exact .inl ⟨rfl, rfl⟩
  | some p =>
    obtain ⟨hp, hsome⟩ := List.mem_filter.1 (List.mem_of_getLast? hl)
    obtain ⟨o, ho⟩ := Option.isSome_iff_exists.1 hsome
    exact .inr ⟨p, hp, o, List.mem_of_find?_eq_some ho, by simpa using List.find?_some ho, rfl, by simp [ho]⟩

end Analysis

/-! ### Blocks whose names are words -/

namespace OverrideTree

variable {κ γ : Type} {P : κ → Prop} {Q : γ → Prop}

/-- All keys of a tree have the property `P`, and all that its nodes hold has the property `Q`. -/
def Forall (P : κ → Prop) (Q : γ → Prop) : OverrideTree κ γ → Prop
  | nil => True
  | node key code below rest => P key ∧ (∀ c ∈ code, Q c) ∧ below.Forall P Q ∧ rest.Forall P Q

theorem forall_chain {code : γ} (hcode : Q code) {k : κ} {path : List κ} (h : ∀ x ∈ k :: path, P x) :
    (chain code k path).Forall P Q := by
  induction path generalizing k with
  | nil => exact ⟨h k (List.mem_cons_self ..), by simpa using hcode, trivial, trivial⟩
  | cons j path ih =>
    obtain ⟨hk, hpath⟩ := List.forall_mem_cons.1 h
    exact ⟨hk, by simp, ih hpath, trivial⟩

theorem Forall.register [DecidableEq κ] {t : OverrideTree κ γ} (ht : t.Forall P Q) {code : γ} (hcode : Q code) {k : κ}
    {path : List κ}
    (h : ∀ x ∈ k :: path, P x) : (t.register code k path).Forall P Q := by
  induction t generalizing k path with
  | nil => exact forall_chain hcode h
  | node key held below rest ihb ihr =>
    obtain ⟨hkey, hheld, hbelow, hrest⟩ := ht
    rw [OverrideTree.register.eq_def]
    by_cases hk : key = k
    · cases path with
      | nil => simpa [hk] using ⟨h k (List.mem_cons_self ..), by simpa using hcode, hbelow, hrest⟩
      | cons j path =>
        simpa [hk] using ⟨h k (List.mem_cons_self ..), hheld, ihb hbelow (List.forall_mem_cons.1 h).2, hrest⟩
    · simpa [hk] using ⟨hkey, hheld, hbelow, ihr hrest h⟩

end OverrideTree

namespace Code.Dispatch

theorem worded_leave {c : OverrideCall} (h : c.methodCall.Worded) : (leave c).block.Worded := by
  rw [block, OverrideCall.statements]
  split
  · exact ⟨by rintro x hx; obtain rfl := Option.some.inj hx; exact h, trivial⟩
  · exact ⟨h, fun x hx => absurd hx (Option.not_mem_none x), trivial⟩

theorem worded_thenLeave {d : Dispatch} (h : d.block.Worded) {call : Option OverrideCall}
    (hcall : ∀ c ∈ call, c.methodCall.Worded) : (d.thenLeave call).block.Worded := by
  induction d with
  | done =>
    cases call with
    | none => trivial
    | some c => exact worded_leave (hcall c rfl)
  | narrow var flag object target body rest _ ih => exact ⟨h.1, h.2.1, ih h.2.2⟩
  | leave c => exact h

theorem worded_ofTree {params path : List Text} {object : Text} (hobject : object.IsWord)
    (hpath : ∀ m ∈ path, Text.IsWord m) {t : OverrideTree Text OverrideCall}
    (ht : t.Forall Text.IsWord fun c => c.methodCall.Worded) : (ofTree params object path t).block.Worded := by
  induction t generalizing object path with
  | nil => trivial
  | node sub call below rest ihb ihr =>
    obtain ⟨hsub, hcall, hbelow, hrest⟩ := ht
    have hpath' : ∀ m ∈ path ++ [sub], Text.IsWord m := List.forall_mem_append.2 ⟨hpath, by simpa using hsub⟩
    have hvar := isWord_narrowedName params hpath'
    exact ⟨⟨hvar, isWord_freeName (by decide) _, hobject, isWord_downcastName hsub⟩,
      worded_thenLeave (ihb hvar hpath' hbelow) hcall, ihr hobject hpath hrest⟩

end Code.Dispatch

namespace Analysis

variable {a : Analysis}

/-- The call of an override is made of words. -/
theorem Complete.worded_call (ha : a.Complete) (hclean : a.findings = []) (hworded : a.file.Worded) {p : Profile}
    (hp : p ∈ a.profiles) {o : Override} (ho : o ∈ p.overrides) :
    (∀ m ∈ o.path, Text.IsWord m) ∧ o.call.methodCall.Worded := by
  obtain ⟨q, hq, hbase, howner, hname, hpath, hlast⟩ := ha.override_spec hp ho
  have hnames : ∀ {m}, m ∈ a.forest.names → Text.IsWord m := fun hm => by
    obtain ⟨r, hr⟩ := ha.exists_profile hm
    obtain ⟨hmade, rfl⟩ := mem_of_find hr
    exact (hworded _ (ha.profile_clean hclean hmade).1).name.word
  have hall : ∀ m ∈ o.path, Text.IsWord m := by
    rw [List.isChain_cons] at hpath
    intro m hm
    obtain ⟨u, v, hsplit⟩ := List.append_of_mem hm
    cases u using List.reverseRecOn with
    | nil => exact hnames (Forest.mem_names_of_parent? (hpath.1 m (by simp [hsplit])))
    | append_singleton u k =>
      have hchain := hpath.2
      rw [hsplit, List.append_assoc, List.isChain_append] at hchain
      exact hnames (Forest.mem_names_of_parent? (List.isChain_cons_cons.1 hchain.2.1).1)
  refine ⟨hall, isWord_narrowedName _ hall, ?_, ?_⟩
  · have hdecl := (ha.profile_clean hclean hp).1
    obtain ⟨-, -, hmethods, -⟩ := ha.profile_clean hclean hq
    have hmem : o.base.decl ∈ q.decl.methods.filter (!·.isOverride) := hmethods ▸ List.mem_map_of_mem hbase
    have hmeaning : o.call.meaning = p.name := by simp [Override.call, hlast]
    show Text.IsWord (overrideName o.call.meaning o.base.name)
    rw [hmeaning]
    exact isWord_overrideName (hworded _ hdecl).name.word
      ((hworded _ (ha.profile_clean hclean hq).1).methods _ (List.mem_of_mem_filter hmem)).word
  · obtain ⟨asc, us, -, hchain⟩ := ha.exists_chain_of_mem hq
    obtain ⟨-, -, hparse, hnamed, -⟩ := Profile.readMethod_ok ((hchain.consistent rfl).methods_read o.base hbase)
    exact Signature.feed_notMem_args hparse hnamed

/-- The block of a method is made of words, so that it can be read back from its lines. -/
theorem Complete.worded_block (ha : a.Complete) (hclean : a.findings = []) (hworded : a.file.Worded) {q : Profile}
    {f : Method} {t : OverrideTree Text OverrideCall} (ht : a.overrideTree q.name f.name = .ok t) :
    (Dispatch.ofTree f.params.names receiverName [] t).block.Worded := by
  -- the overrides are registered one after the other
  have hrun : ∀ (os : List Override), (∀ o ∈ os, o ∈ a.overridesOf q.name f.name) → ∀ t t',
      OverrideTree.Forall Text.IsWord (fun c : OverrideCall => c.methodCall.Worded) t →
        os.foldlM Override.addTo t = .ok t' → t'.Forall Text.IsWord fun c => c.methodCall.Worded := by
    intro os hos
    induction os with
    | nil =>
      rintro t t' hall h
      cases h
      exact hall
    | cons o os ih =>
      intro t t' hall h
      obtain ⟨p, hp, hop, -⟩ := mem_overridesOf.1 (hos o (List.mem_cons_self ..))
      obtain ⟨hpath, hcall⟩ := ha.worded_call hclean hworded hp hop
      rw [List.foldlM_cons] at h
      obtain ⟨t₁, hadd, h⟩ := bind_eq_ok.1 h
      refine ih (fun x hx => hos x (List.mem_cons_of_mem _ hx)) t₁ t' ?_ h
      rw [Override.addTo] at hadd
      cases hk : o.path with
      | nil => rw [hk] at hadd; cases hadd
      | cons k path =>
        rw [hk] at hadd hpath
        cases hadd
        exact hall.register hcall hpath
  exact Dispatch.worded_ofTree (by decide) (by simp) (hrun _ (fun _ h => h) .nil t trivial ht)

end Analysis

/-! ### Dispatch in generated code -/

/-- The methods of the handle types of a generated file. -/
def Code.FileCode.methods (c : FileCode) : List MethodCode := c.meanings.flatMap (·.methods)

/-- The implementations of the overrides of a generated file. -/
def Code.FileCode.overrides (c : FileCode) : List MethodCode := c.meanings.flatMap (·.overrides)

namespace Analysis

variable {a : Analysis}

/-- The method of a profile is generated once. -/
theorem Complete.mem_methods (ha : a.Complete) {settings : Settings} {code : FileCode}
    (hcode : a.fileCode settings = .ok code) {g : MethodCode} :
    g ∈ code.methods ↔ ∃ p ∈ a.profiles, ∃ f ∈ p.methods, a.methodCode p f = .ok g := by
  rw [FileCode.methods, List.mem_flatMap]
  constructor
  · rintro ⟨c, hc, hg⟩
    obtain ⟨p, hp, hpc⟩ := (ha.mem_meanings hcode).1 hc
    obtain ⟨root, below, methods, -, hmethods, hpc'⟩ := ha.exists_meaningCode hp
    rw [hpc] at hpc'
    cases hpc'
    obtain ⟨f, hf, hfg⟩ := mem_of_mapM_ok hmethods hg
    exact ⟨p, hp, f, hf, hfg⟩
  · rintro ⟨p, hp, f, hf, hfg⟩
    obtain ⟨root, below, methods, -, hmethods, hpc⟩ := ha.exists_meaningCode hp
    exact ⟨_, (ha.mem_meanings hcode).2 ⟨p, hp, hpc⟩, mem_of_forall_ok hmethods hf hfg⟩

theorem Complete.overrideCode_mem (ha : a.Complete) {settings : Settings} {code : FileCode}
    (hcode : a.fileCode settings = .ok code) {p : Profile} (hp : p ∈ a.profiles) {o : Override}
    (ho : o ∈ p.overrides) : overrideCode p o ∈ code.overrides := by
  obtain ⟨root, below, methods, -, -, hpc⟩ := ha.exists_meaningCode hp
  rw [FileCode.overrides, List.mem_flatMap]
  exact ⟨_, (ha.mem_meanings hcode).2 ⟨p, hp, hpc⟩, List.mem_map_of_mem ho⟩

end Analysis

end MeaningForest
