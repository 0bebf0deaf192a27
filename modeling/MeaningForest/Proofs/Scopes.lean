import MeaningForest.Proofs.Hygiene
import MeaningForest.Proofs.Overriding

/-!
# Scopes of dispatch blocks

Each condition of a dispatch block binds a variable for the narrowed object and one for the success of the downcast.
What a name means inside depends on the conditions around it, which belong to the nodes above in the tree of overrides.

* `dispatchNames_nodup`, `notMem_of_mem_dispatchNames`: the variables on a path are different from each other and from
  the parameters.
* `Code.Dispatch.conditions_ofTree`, `statements_ofTree`: a block has one condition for each node of its tree, and the
  statements of the code of a node inside the conditions of its path.
* `Analysis.exists_wellScoped`: so every call is made on the handle of the innermost condition, and its arguments are
  parameters of the method.
-/

namespace MeaningForest

open Code

variable {lang : Language}

/-! ### Names on a path -/

theorem dispatchNames_append (params path rest : List Text) : dispatchNames params (path ++ rest) =
    dispatchNames params path ++ dispatchNames (params ++ dispatchNames params path) rest := by
  induction path generalizing params with
  | nil => simp [dispatchNames]
  | cons m path ih => simp [dispatchNames, ih]

/-- One step further there is one more name, that of the object after this step. -/
theorem dispatchNames_concat (params path : List Text) (m : Text) :
    dispatchNames params (path ++ [m]) = dispatchNames params path ++ [narrowedName params (path ++ [m])] := by
  rw [narrowedName, dispatchNames_append]
  simp [dispatchNames]

theorem notMem_of_mem_dispatchNames {params path : List Text} {v : Text} (h : v ∈ dispatchNames params path) :
    v ∉ params := by
  induction path generalizing params with
  | nil => cases h
  | cons m path ih =>
    rcases List.mem_cons.1 h with rfl | h
    · exact freeName_notMem _ _
    · exact fun hv => ih h (List.mem_append_left _ hv)

theorem dispatchNames_nodup (params path : List Text) : (dispatchNames params path).Nodup := by
  induction path generalizing params with
  | nil => exact List.nodup_nil
  | cons m path ih =>
    refine List.nodup_cons.2 ⟨fun h => ?_, ih _⟩
    exact notMem_of_mem_dispatchNames h (List.mem_append_right _ (List.mem_singleton_self _))

theorem ne_flag_of_mem_dispatchNames {params path taken : List Text} {v : Text} (h : v ∈ dispatchNames params path) :
    v ≠ freeName "ok" taken := by
  induction path using List.reverseRecOn with
  | nil => cases h
  | append_singleton path m ih =>
    rw [dispatchNames_concat] at h
    rcases List.mem_append.1 h with h | h
    · exact ih h
    · rw [List.mem_singleton.1 h]
      exact narrowedName_ne_flag _ _ _ _

/-! ### Nodes of a tree -/

namespace OverrideTree

variable {κ γ : Type}

/-- The paths to the nodes of a tree. -/
def paths : OverrideTree κ γ → List (List κ)
  | nil => []
  | node key _ below rest => [key] :: below.paths.map (key :: ·) ++ rest.paths

/-- The code in a tree, with the paths to its nodes; deeper code comes first. -/
def codes : OverrideTree κ γ → List (List κ × γ)
  | nil => []
  | node key code below rest =>
    below.codes.map (fun x => (key :: x.1, x.2)) ++ code.toList.map (([key], ·)) ++ rest.codes

theorem mem_paths_of_mem_codes {t : OverrideTree κ γ} {q : List κ} {c : γ} (h : (q, c) ∈ t.codes) : q ∈ t.paths := by
  induction t generalizing q with
  | nil => cases h
  | node key code below rest ihb ihr =>
    simp only [codes, paths, List.mem_append, List.mem_map, List.mem_cons, Prod.mk.injEq, Prod.exists] at h ⊢
    rcases h with (⟨q, c, h, rfl, rfl⟩ | ⟨c, -, rfl, rfl⟩) | h
    · exact .inl (.inr ⟨q, ihb h, rfl⟩)
    · exact .inl (.inl rfl)
    · exact .inr (ihr h)

/-- Where nodes beside each other are different, the code that is listed for a path is the code at this path. -/
theorem mem_codes_iff {parent : Text → Option Text} {t : OverrideTree Text γ} {m : Text} (ht : t.Downward parent m)
    {q : List Text} {c : γ} : (q, c) ∈ t.codes ↔ t.codeAt q = some c := by
  induction t generalizing m q with
  | nil => simp [codes]
  | node key code below rest ihb ihr =>
    obtain ⟨-, hnew, hbelow, hrest⟩ := ht
    have hmem : (q, c) ∈ (node key code below rest).codes ↔
        (∃ p, (p, c) ∈ below.codes ∧ key :: p = q) ∨ (code = some c ∧ [key] = q) ∨ (q, c) ∈ rest.codes := by
      cases code <;> simp [codes, and_comm, eq_comm]
    rw [hmem, ihr hrest]
    cases q with
    | nil => simp
    | cons k q =>
      by_cases hk : key = k
      · subst hk
        rw [codeAt_of_get?_eq_none hnew, codeAt_of_get? (get?_node key key code below rest ▸ if_pos rfl)]
        cases q with
        | nil => simp [ihb hbelow]
        | cons j q => simp [ihb hbelow]
      · rw [codeAt_congr (t := node key code below rest) (u := rest) (by rw [get?_node, if_neg hk])]
        simp [hk]

/-- A path of a tree goes down from parent to child. -/
theorem Downward.isChain_of_mem_paths {parent : Text → Option Text} {t : OverrideTree Text γ} {m : Text}
    (ht : t.Downward parent m) {q : List Text} (h : q ∈ t.paths) : (m :: q).IsChain fun a b => parent b = some a := by
  induction t generalizing m q with
  | nil => cases h
  | node key code below rest ihb ihr =>
    obtain ⟨hkey, -, hbelow, hrest⟩ := ht
    rw [paths] at h
    rcases List.mem_append.1 h with h | h
    · rcases List.mem_cons.1 h with rfl | h
      · exact List.isChain_pair.2 hkey
      · obtain ⟨q, hq, rfl⟩ := List.mem_map.1 h
        exact List.isChain_cons_cons.2 ⟨hkey, ihb hbelow hq⟩
    · exact ihr hrest h

end OverrideTree

/-! ### Conditions and statements of a block -/

namespace Code.Block

/-- The conditions of a block, each after those that it stands in. -/
def conditions : Block → List (List Condition)
  | done => []
  | narrow c body rest => [c] :: body.conditions.map (c :: ·) ++ rest.conditions
  | perform _ rest => rest.conditions

/-- The statements of a block, each with the conditions that it stands in. -/
def statements : Block → List (List Condition × Statement)
  | done => []
  | narrow c body rest => body.statements.map (fun x => (c :: x.1, x.2)) ++ rest.statements
  | perform s rest => ([], s) :: rest.statements

theorem conditions_ofStatements (ss : List Statement) : (ofStatements ss).conditions = [] := by
  induction ss with
  | nil => rfl
  | cons s ss ih => exact ih

theorem statements_ofStatements (ss : List Statement) : (ofStatements ss).statements = ss.map ([], ·) := by
  induction ss with
  | nil => rfl
  | cons s ss ih => exact congrArg (_ :: ·) ih

/-- The names inside of conditions: what stands in front hides what stands behind.  There are none if a condition calls
a method on something that is no handle, or one that the handle does not have. -/
def scopeIn (downcast? : Text → Text → Option Text) (scope : List (Text × Holding)) :
    List Condition → Option (List (Text × Holding))
  | [] => some scope
  | c :: gs =>
    match scope.lookup c.object with
    | some (.handle m) =>
      (downcast? m c.method).bind fun target =>
        scopeIn downcast? ((c.var, .handle target) :: (c.flag, .flag) :: scope) gs
    | _ => none

/-- The names in a method of `owner`, outside of conditions. -/
def methodScope (owner : Text) (params : List Text) : List (Text × Holding) :=
  (receiverName, .handle owner) :: params.map (·, .argument)

theorem lookup_methodScope {owner : Text} {params : List Text} {name : Text} (h : name ∈ params)
    (hreceiver : name ≠ receiverName) : (methodScope owner params).lookup name = some .argument := by
  have hself : (name == receiverName) = false := by simpa using hreceiver
  rw [methodScope, List.lookup_cons, hself]
  induction params with
  | nil => cases h
  | cons p params ih =>
    rw [List.map_cons, List.lookup_cons]
    by_cases hp : name = p
    · simp [hp]
    · have hne : (name == p) = false := by simpa using hp
      simpa [hne] using ih ((List.mem_cons.1 h).resolve_left hp)

end Code.Block

/-! ### The block of a tree -/

namespace Code.Dispatch

theorem conditions_thenLeave (call : Option OverrideCall) (d : Dispatch) :
    (d.thenLeave call).block.conditions = d.block.conditions := by
  induction d with
  | done =>
    cases call with
    | none => rfl
    | some c => exact Block.conditions_ofStatements _
  | narrow var flag object target body rest _ ih =>
    rw [thenLeave, block, block, Block.conditions, Block.conditions, ih]
  | leave c => rfl

/-- The conditions for the nodes on a path, on an object that has been narrowed along `above`. -/
def guards (params : List Text) (object : Text) (above : List Text) : List Text → List Condition
  | [] => []
  | m :: path =>
    let v := narrowedName params (above ++ [m])
    ⟨v, freeName "ok" params, object, downcastName m⟩ :: guards params v (above ++ [m]) path

theorem conditions_ofTree (params : List Text) (object : Text) (above : List Text)
    (t : OverrideTree Text OverrideCall) :
    (ofTree params object above t).block.conditions = t.paths.map (guards params object above) := by
  induction t generalizing object above with
  | nil => rfl
  | node sub call below rest ihb ihr =>
    rw [ofTree, block, Block.conditions, conditions_thenLeave, ihb, ihr, OverrideTree.paths]
    simp [guards, narrowedName]

theorem statements_thenLeave_ofTree (params : List Text) (object : Text) (above : List Text)
    (t : OverrideTree Text OverrideCall) (call : Option OverrideCall) :
    ((ofTree params object above t).thenLeave call).block.statements =
      (ofTree params object above t).block.statements ++ call.toList.flatMap fun c => c.statements.map ([], ·) := by
  -- a call is put behind the conditions for the nodes at the top
  induction t generalizing object with
  | nil =>
    cases call with
    | none => rfl
    | some c => simpa [thenLeave, ofTree, block, Block.statements] using Block.statements_ofStatements c.statements
  | node sub held below rest _ ihr =>
    rw [ofTree, thenLeave, block, Block.statements, ihr, block, Block.statements, List.append_assoc]

theorem statements_ofTree (params : List Text) (object : Text) (above : List Text)
    (t : OverrideTree Text OverrideCall) : (ofTree params object above t).block.statements =
      t.codes.flatMap fun x => x.2.statements.map (guards params object above x.1, ·) := by
  induction t generalizing object above with
  | nil => rfl
  | node sub call below rest ihb ihr =>
    rw [ofTree, block, Block.statements, statements_thenLeave_ofTree, ihb, ihr, OverrideTree.codes]
    simp only [List.map_append, List.map_flatMap, List.flatMap_append, List.flatMap_map, List.map_map, guards,
      narrowedName, Function.comp_def]

/-! ### What the conditions bind -/

theorem methods_guards (params : List Text) (object : Text) (above path : List Text) :
    (guards params object above path).map (·.method) = path.map downcastName := by
  induction path generalizing object above with
  | nil => rfl
  | cons m path ih => rw [guards, List.map_cons, List.map_cons, ih]

theorem vars_guards (params : List Text) (object : Text) (above path : List Text) :
    dispatchNames params (above ++ path) =
      dispatchNames params above ++ (guards params object above path).map (·.var) := by
  induction path generalizing object above with
  | nil => simp [guards]
  | cons m path ih =>
    have hsplit : above ++ m :: path = (above ++ [m]) ++ path := by simp
    rw [hsplit, ih (narrowedName params (above ++ [m])), dispatchNames_concat, guards]
    simp

theorem flag_guards {params : List Text} {object : Text} {above path : List Text} {g : Condition}
    (h : g ∈ guards params object above path) : g.flag = freeName "ok" params := by
  induction path generalizing object above with
  | nil => cases h
  | cons m path ih =>
    rcases List.mem_cons.1 h with rfl | h
    · rfl
    · exact ih h

/-- Inside of the conditions of a way down the last variable is the handle of its end.  Names that no condition binds
mean what they meant outside. -/
theorem scopeIn_guards {parent : Text → Option Text} {downcast? : Text → Text → Option Text}
    (hdown : ∀ m sub, parent sub = some m → downcast? m (downcastName sub) = some sub) (params : List Text)
    (object : Text) (above : List Text) {m : Text} {path : List Text}
    (hpath : (m :: path).IsChain fun a b => parent b = some a) (scope : List (Text × Block.Holding))
    (hobject : scope.lookup object = some (.handle m)) :
    ∃ inner, Block.scopeIn downcast? scope (guards params object above path) = some inner ∧
      inner.lookup (((guards params object above path).map (·.var)).getLast?.getD object) =
        some (.handle (path.getLast?.getD m)) ∧
      ∀ name, (∀ g ∈ guards params object above path, g.var ≠ name ∧ g.flag ≠ name) →
        inner.lookup name = scope.lookup name := by
  induction path generalizing object m above scope with
  | nil => exact ⟨scope, rfl, hobject, fun _ _ => rfl⟩
  | cons sub path ih =>
    obtain ⟨hsub, hpath⟩ := List.isChain_cons_cons.1 hpath
    obtain ⟨inner, hinner, hlast, hframe⟩ := ih (narrowedName params (above ++ [sub])) (above ++ [sub]) hpath
      ((_, .handle sub) :: (freeName "ok" params, .flag) :: scope) List.lookup_cons_self
    refine ⟨inner, ?_, ?_, fun name hname => ?_⟩
    · rw [guards, Block.scopeIn, hobject]
      simp only
      rw [hdown m sub hsub]
      exact hinner
    · rw [guards, List.map_cons, List.getLast?_cons, List.getLast?_cons]
      exact hlast
    · obtain ⟨hfirst, hrest⟩ := List.forall_mem_cons.1 hname
      have hvar : (name == narrowedName params (above ++ [sub])) = false := by simpa using hfirst.1.symm
      have hflag : (name == freeName "ok" params) = false := by simpa using hfirst.2.symm
      rw [hframe name hrest, List.lookup_cons, hvar]
      simp only
      rw [List.lookup_cons, hflag]

end Code.Dispatch

/-! ### Scopes -/

namespace Code.Block

/-- The conditions around a node, outermost first.  They narrow the object along the path of the node, each on the
handle of the one around it, and the names that they bind are new. -/
structure Guarded (downcast? : Text → Text → Option Text) (owner : Text) (params : List Text) (path : List Text)
    (gs : List Condition) : Prop where
  methods : gs.map (·.method) = path.map downcastName
  vars : gs.map (·.var) = dispatchNames params path
  flags : ∀ g ∈ gs, g.flag = freeName "ok" params
  distinct : (gs.map (·.var)).Nodup
  fresh : ∀ g ∈ gs, g.var ∉ params ∧ g.flag ∉ params ∧ g.var ≠ g.flag
  resolved : ∃ scope, scopeIn downcast? (methodScope owner params) gs = some scope ∧
    scope.lookup ((gs.map (·.var)).getLast?.getD receiverName) = some (.handle (path.getLast?.getD owner)) ∧
    ∀ name ∈ params, scope.lookup name = some .argument

/-- The block of a method with a tree of overrides, where `around` are the conditions for the path of a node.  There is
one for each node, inside the conditions for the nodes above, and the statements are those of the code of the nodes.
This code is a call on the handle that the innermost condition binds, with the parameters of the method. -/
structure WellScoped (b : Block) (downcast? : Text → Text → Option Text) (owner : Text) (params : Signature)
    (t : OverrideTree Text OverrideCall) (around : List Text → List Condition) : Prop where
  conditions : b.conditions = t.paths.map around
  guarded : ∀ path ∈ t.paths, Guarded downcast? owner params.names path (around path)
  statements : b.statements = t.codes.flatMap fun x => x.2.statements.map (around x.1, ·)
  codes : ∀ path c, (path, c) ∈ t.codes ↔ t.codeAt path = some c
  call : ∀ path c, t.codeAt path = some c → path ∈ t.paths ∧ path.getLast? = some c.meaning ∧
    ((around path).map (·.var)).getLast? = some c.receiver ∧ c.arguments = params.args ∧
    c.text = Text.join [0x0a] (c.statements.map (·.text))

end Code.Block

namespace Code.Dispatch

theorem guarded_guards {parent : Text → Option Text} {downcast? : Text → Text → Option Text}
    (hdown : ∀ m sub, parent sub = some m → downcast? m (downcastName sub) = some sub) {owner : Text}
    {params path : List Text} (hpath : (owner :: path).IsChain fun a b => parent b = some a)
    (hself : receiverName ∉ params) :
    Block.Guarded downcast? owner params path (guards params receiverName [] path) := by
  have hvars := vars_guards params receiverName [] path
  rw [List.nil_append, dispatchNames, List.nil_append] at hvars
  have hmem : ∀ g ∈ guards params receiverName [] path, g.var ∈ dispatchNames params path := fun g hg =>
    hvars ▸ List.mem_map_of_mem hg
  have hfresh : ∀ g ∈ guards params receiverName [] path, g.var ∉ params ∧ g.flag ∉ params ∧ g.var ≠ g.flag := by
    intro g hg
    rw [flag_guards hg]
    exact ⟨notMem_of_mem_dispatchNames (hmem g hg), freeName_notMem _ _, ne_flag_of_mem_dispatchNames (hmem g hg)⟩
  obtain ⟨inner, hinner, hlast, hframe⟩ := scopeIn_guards hdown params receiverName [] hpath
    (Block.methodScope owner params) List.lookup_cons_self
  refine ⟨methods_guards .., hvars.symm, fun g hg => flag_guards hg, hvars ▸ dispatchNames_nodup params path, hfresh,
    inner, hinner, hlast, fun name hname => ?_⟩
  rw [hframe name fun g hg => ⟨fun he => (hfresh g hg).1 (he ▸ hname), fun he => (hfresh g hg).2.1 (he ▸ hname)⟩]
  exact Block.lookup_methodScope hname fun he => hself (he ▸ hname)

theorem wellScoped_ofTree {parent : Text → Option Text} {downcast? : Text → Text → Option Text}
    (hdown : ∀ m sub, parent sub = some m → downcast? m (downcastName sub) = some sub) {owner : Text}
    {params : Signature} {t : OverrideTree Text OverrideCall} (ht : t.Downward parent owner)
    (hfits : Fits params.names [] t) (hargs : ∀ path c, t.codeAt path = some c → c.arguments = params.args)
    (hself : receiverName ∉ params.names) :
    (ofTree params.names receiverName [] t).block.WellScoped downcast? owner params t
      (guards params.names receiverName []) where
  conditions := conditions_ofTree ..
  guarded := fun path hpath => guarded_guards hdown (ht.isChain_of_mem_paths hpath) hself
  statements := statements_ofTree ..
  codes := fun path c => OverrideTree.mem_codes_iff ht
  call := by
    intro path c hc
    obtain ⟨hreceiver, hmeaning⟩ := hfits path c hc
    have hvars := vars_guards params.names receiverName [] path
    rw [List.nil_append, dispatchNames, List.nil_append] at hvars
    refine ⟨OverrideTree.mem_paths_of_mem_codes ((OverrideTree.mem_codes_iff ht).2 hc), hmeaning, ?_, hargs path c hc,
      c.text_eq_join⟩
    obtain ⟨above, rfl⟩ := List.getLast?_eq_some_iff.1 hmeaning
    rw [← hvars, hreceiver, List.nil_append, dispatchNames_concat, List.getLast?_concat]

end Code.Dispatch

namespace Analysis

variable {a : Analysis} {settings : Settings} {code : FileCode}

theorem Complete.wellScoped (ha : a.Complete) (hclean : a.findings = []) (hcode : a.fileCode settings = .ok code)
    {p : Profile} (hp : p ∈ a.profiles) {f : Method} (hf : f ∈ p.methods) {t : OverrideTree Text OverrideCall}
    (ht : a.overrideTree p.name f.name = .ok t) :
    (Dispatch.ofTree f.params.names receiverName [] t).block.WellScoped code.downcast? p.name f.params t
      (Dispatch.guards f.params.names receiverName []) := by
  obtain ⟨asc, us, -, hchain⟩ := ha.exists_chain_of_mem hp
  obtain ⟨-, -, hparse, -⟩ := Profile.readMethod_ok ((hchain.consistent rfl).methods_read f hf)
  refine Dispatch.wellScoped_ofTree (fun m sub hsub => ha.downcast?_eq hclean hcode hsub) (ha.downward_overrideTree ht)
    (ha.fits_overrideTree hp hf ht) ?_ ?_
  · intro path c hc
    obtain ⟨-, -, o, -, rfl, -, -, rfl⟩ := ha.exists_override_of_codeAt hp hf ht hc
    rfl
  · exact fun hself => (Signature.names_of_parse hparse hself).1 rfl

/-- Variables of dispatch blocks.  In the block at the beginning of every method of a file each condition binds a new
variable for its object, and each call is made on the handle of the innermost condition, with the parameters of the
method. -/
theorem exists_wellScoped {file : DeclFile} (h : ofFile settings file = .ok a) (hclean : a.findings = []) :
    ∃ code, a.fileCode settings = .ok code ∧
      ∀ d ∈ file.meanings, ∀ m ∈ d.methods, m.isOverride = false → ∃ s t, Signature.parse m.params = .ok s ∧
        a.overrideTree d.name m.name = .ok t ∧ ∃ g ∈ code.methods, g.meaning = d.name ∧ g.decl = m ∧
          ∃ b, code.Opens g b ∧ (file.Worded → Block.read? b.lines = some b) ∧
            ∃ around, b.WellScoped code.downcast? d.name s t around := by
  obtain ⟨ha, rfl⟩ := complete_of_ofFile h
  obtain ⟨code, hcode⟩ := ha.exists_fileCode settings
  refine ⟨code, hcode, fun d hd m hm hdefines => ?_⟩
  obtain ⟨p, hp, rfl⟩ := ha.exists_profile_of_decl hclean hd
  obtain ⟨-, -, hmethods, -⟩ := ha.profile_clean hclean hp
  have hmem : m ∈ p.methods.map (·.decl) := by simp [hmethods, hm, hdefines]
  obtain ⟨f, hf, rfl⟩ := List.mem_map.1 hmem
  obtain ⟨asc, us, -, hchain⟩ := ha.exists_chain_of_mem hp
  obtain ⟨-, -, hparse, -⟩ := Profile.readMethod_ok ((hchain.consistent rfl).methods_read f hf)
  obtain ⟨t, ht, hcodeOf⟩ := ha.exists_methodCode p f
  have hmade := (ha.mem_methods hcode).2 ⟨p, hp, f, hf, hcodeOf⟩
  exact ⟨f.params, t, hparse, ht, _, hmade, rfl, rfl, _, FileCode.opens hmade,
    fun hworded => Block.read?_lines (ha.worded_block hclean hworded ht), _, ha.wellScoped hclean hcode hp hf ht⟩

/-- A method with parameters that are named like variables of its block, and a meaning that is named like another one
with a number. -/
def picks : DeclFile :=
  let pick (isOverride : Bool) : MethodDecl :=
    { position := ⟨2, 2⟩, name := "Pick", isOverride, doc := [], typeParams := [], params := "ok bool, asB string"
      results := "string", body := "return asB" }
  let meaning (line : Nat) (name parent : Text) (isOverride : Bool) : MeaningDecl :=
    { position := ⟨line, 1⟩, name, parent, parentPosition := ⟨line, 1⟩, doc := [], fields := [], constructors := []
      methods := [pick isOverride] }
  { name := "picks.mt", meanings := [meaning 1 "A" [] false, meaning 4 "B" "A" true, meaning 7 "B1" "B" true] }

theorem wellScoped_picks : ∃ a code s t g b around, @ofFile .english {} picks = .ok a ∧ a.findings = [] ∧
    a.fileCode {} = .ok code ∧ a.overrideTree "A" "Pick" = .ok t ∧ g ∈ code.methods ∧
    s.names = [Text.ofString "ok", Text.ofString "asB"] ∧ code.Opens g b ∧ Block.read? b.lines = some b ∧
    b.WellScoped code.downcast? "A" s t around ∧ freeName "ok" s.names = "ok1" ∧
    dispatchNames s.names ["B", "B1"] = [Text.ofString "asB1", Text.ofString "asB11"] := by
  obtain ⟨a, ha, hclean⟩ := exists_clean (by decide +kernel : @cleanInOrder .english {} picks)
  obtain ⟨code, hcode, hscoped⟩ := exists_wellScoped ha hclean
  obtain ⟨d, hd, hname, m, hm, hdefines, hmname, hnames⟩ : ∃ d ∈ picks.meanings, d.name = "A" ∧ ∃ m ∈ d.methods,
      m.isOverride = false ∧ m.name = "Pick" ∧ (Signature.parse m.params).toOption.map (·.names) =
        some [Text.ofString "ok", Text.ofString "asB"] := by decide +kernel
  obtain ⟨s, t, hparse, ht, g, hg, -, -, b, hopens, hread, around, hscoped⟩ := hscoped d hd m hm hdefines
  rw [hparse] at hnames
  rw [hname, hmname] at ht
  rw [hname] at hscoped
  have hs : s.names = _ := Option.some.inj hnames
  refine ⟨a, code, s, t, g, b, around, ha, hclean, hcode, ht, hg, hs, hopens,
    hread (by decide +kernel), hscoped, ?_, ?_⟩
  · rw [hs]
    decide +kernel
  · rw [hs]
    decide +kernel

end Analysis

end MeaningForest
