import MeaningForest.Proofs.Arguments
import MeaningForest.Proofs.Construction
import MeaningForest.Proofs.Fragments
import MeaningForest.Proofs.Returns
import MeaningForest.Proofs.Scopes

/-!
# Forwarded arguments

A method that is overridden calls the override with its own parameters, and the factory and the initializer of a meaning
call its constructor with theirs.  The names in such a call come from one parameter list, while the function that is
called has another; the two were compared by the normal forms of their types.

* `Signature.Describes.forwards`: if the types of two lists are equal, the names of the first suit the second.
* `Analysis.Complete.forwardsOverride`, `Analysis.Complete.forwardsConstructor`: the calls in generated code.
* `Analysis.exists_forwarding`: in a file without findings all parameters are forwarded.
-/

namespace MeaningForest

open Code

variable {lang : Language}

/-! ### Lists that belong together -/

/-- Arguments that hand on the parameters `base` to a function with the parameters `own`.  They are the names of the
former in order, none of which is blank, and there is one for each of the latter, which has the same type.  The last one
is spread exactly if the function is variadic. -/
structure Forwards (base own : List Parameter) (args : List Host.Expr) (spread : Bool) : Prop where
  names : base.map (fun p => p.name.map Host.Expr.ident) = args.map some
  named : some (Text.ofString "_") ∉ base.map (·.name)
  length : args.length = own.length
  types : own.map (·.type.render) = base.map (·.type.render)
  spread : spread = true ↔ ∃ p ∈ own.getLast?, p.type.isEllipsis = true

/-- The arguments of a call, after some first ones, hand on the parameters of a list to a function with another list.
The text of the arguments ends in dots exactly if the last one is spread. -/
def PassesOn (base own : Text) (first : List Host.Expr) (arguments : Text) : Prop :=
  ∃ ps qs args spread, readParameters? base = some ps ∧ readParameters? own = some qs ∧
    readArguments? arguments = some (first ++ args, spread) ∧
    (Text.ofString "..." <:+ arguments ↔ spread = true) ∧ Forwards ps qs args spread

/-- The names of one list and the last type of the other tell what the arguments are. -/
theorem PassesOn.readArguments? {base own : Text} {first : List Host.Expr} {arguments : Text}
    (h : PassesOn base own first arguments) {names : List Text} {variadic : Bool}
    (hnames : (readParameters? base).map (·.map (·.name)) = some (names.map some))
    (hlast : (readParameters? own).map (fun qs => qs.getLast?.any (·.type.isEllipsis)) = some variadic) :
    readArguments? arguments = some (first ++ names.map .ident, variadic) := by
  obtain ⟨ps, qs, args, spread, hps, hqs, hargs, -, hforwards⟩ := h
  rw [hps, Option.map_some, Option.some.injEq] at hnames
  rw [hqs, Option.map_some, Option.some.injEq] at hlast
  have hidents : args = names.map .ident := by
    have heq := congrArg (List.map (Option.map Host.Expr.ident)) hnames
    rw [List.map_map, List.map_map] at heq
    have hsome : args.map some = (names.map Host.Expr.ident).map some := by
      rw [← hforwards.names, List.map_map]
      exact heq
    exact List.map_injective_iff.2 (Option.some_injective _) hsome
  have hspread : spread = variadic := by
    rw [Bool.eq_iff_iff, hforwards.spread, ← hlast]
    cases qs.getLast? <;> simp
  rw [hargs, hidents, hspread]

namespace Signature

variable {s t : Signature} {ps qs : List Parameter}

/-- Whether the last parameter is variadic can be told from the types. -/
theorem Describes.variadic_iff (hs : s.Describes ps) (ht : t.Describes qs) (htypes : t.types = s.types) :
    s.variadic = true ↔ ∃ q ∈ qs.getLast?, q.type.isEllipsis = true := by
  have hlast : qs.getLast?.map (·.type.render) = ps.getLast?.map (·.type.render) := by
    rw [← List.getLast?_map, ← List.getLast?_map, ht.types, hs.types, htypes]
  rw [hs.variadic]
  cases hp : ps.getLast? with
  | none =>
    rw [hp, Option.map_none, Option.map_eq_none_iff] at hlast
    rw [hlast]
  | some p =>
    rw [hp, Option.map_some, Option.map_eq_some_iff] at hlast
    obtain ⟨q, hq, hrender⟩ := hlast
    have hmarked : p.type.isEllipsis = true ↔ q.type.isEllipsis = true := by
      have hpmarked := hs.marked p (List.mem_of_getLast? hp)
      have hqmarked := ht.marked q (List.mem_of_getLast? hq)
      rw [Host.Expr.Marked] at hpmarked hqmarked
      rw [hpmarked, hqmarked, hrender]
    simpa [hq] using hmarked

/-- The names of a signature can be handed on wherever its types are asked for. -/
theorem Describes.forwards (hs : s.Describes ps) (ht : t.Describes qs) (htypes : t.types = s.types) :
    Forwards ps qs (s.names.map .ident) s.variadic where
  names := by
    have hnames := congrArg (List.map (Option.map Host.Expr.ident)) hs.names
    simpa [Function.comp_def] using hnames
  named := by
    rw [hs.names]
    intro hblank
    obtain ⟨name, hname, heq⟩ := List.mem_map.1 hblank
    exact (hs.spelled name hname).2 (Option.some.inj heq)
  length := by
    have hnames : ps.length = s.names.length := by simpa using congrArg List.length hs.names
    have hown : qs.length = ps.length := by
      simpa using congrArg List.length (ht.types.trans (htypes.trans hs.types.symm))
    rw [List.length_map, hown, hnames]
  types := by rw [ht.types, hs.types, htypes]
  spread := hs.variadic_iff ht htypes

variable {base own : Text}

theorem passesOn_namesText (hs : parse base = .ok s) (hsnamed : s.unnamed = false) (ht : parse own = .ok t)
    (htnamed : t.unnamed = false) (htypes : t.types = s.types) (first : List Text)
    (hfirst : ∀ name ∈ first, Host.IsName name) :
    PassesOn base own (first.map .ident) (Host.namesText s.variadic (first ++ s.names)) := by
  obtain ⟨ps, hps, hsps⟩ := exists_describes hs hsnamed
  obtain ⟨qs, hqs, htqs⟩ := exists_describes ht htnamed
  have hnames : ∀ name ∈ first ++ s.names, Host.IsName name :=
    List.forall_mem_append.2 ⟨hfirst, fun name hname => (hsps.spelled name hname).1⟩
  refine ⟨ps, qs, s.names.map .ident, s.variadic, hps, hqs, ?_, dots_suffix_namesText hnames,
    hsps.forwards htqs htypes⟩
  rw [← List.map_append]
  exact readArguments?_namesText hnames fun hnil => hsps.variadic_eq_false (List.append_eq_nil_iff.1 hnil).2

theorem passesOn_args (hs : parse base = .ok s) (hsnamed : s.unnamed = false) (ht : parse own = .ok t)
    (htnamed : t.unnamed = false) (htypes : t.types = s.types) : PassesOn base own [] s.args := by
  obtain ⟨ps, -, hsps⟩ := exists_describes hs hsnamed
  rw [s.args_eq hsps.variadic_eq_false]
  exact passesOn_namesText hs hsnamed ht htnamed htypes [] nofun

theorem passesOn_andMore (hs : parse base = .ok s) (hnamed : s.unnamed = false) {var : Text}
    (hvar : Host.IsName var) : PassesOn base base [.ident var] (andMore var s.args) := by
  obtain ⟨ps, -, hsps⟩ := exists_describes hs hnamed
  rw [s.andMore_args_eq (fun name hname => (hsps.spelled name hname).1) hsps.variadic_eq_false]
  exact passesOn_namesText hs hnamed hs hnamed rfl [var] (List.forall_mem_singleton.2 hvar)

end Signature

/-! ### Calls of overrides -/

namespace Code

/-- The calls of overrides in a dispatch. -/
def Dispatch.calls : Dispatch → List OverrideCall
  | done => []
  | narrow _ _ _ _ body rest => body.calls ++ rest.calls
  | leave call => [call]

theorem Dispatch.mem_calls_thenLeave_ofTree {params : List Text} {object : Text} {above : List Text}
    {t : OverrideTree Text OverrideCall} {call : Option OverrideCall} {c : OverrideCall} :
    c ∈ ((ofTree params object above t).thenLeave call).calls ↔
      c ∈ (ofTree params object above t).calls ∨ call = some c := by
  induction t generalizing object with
  | nil => cases call <;> simp [ofTree, thenLeave, calls, eq_comm]
  | node sub held below rest _ ihr => simp [ofTree, thenLeave, calls, ihr, or_assoc]

theorem Dispatch.mem_calls_ofTree {params : List Text} {object : Text} {above : List Text}
    {t : OverrideTree Text OverrideCall} {c : OverrideCall} :
    c ∈ (ofTree params object above t).calls ↔ ∃ q, (q, c) ∈ t.codes := by
  induction t generalizing object above with
  | nil => simp [ofTree, calls, OverrideTree.codes]
  | node sub call below rest ihb ihr =>
    rw [ofTree, calls, List.mem_append, mem_calls_thenLeave_ofTree, ihb, ihr, OverrideTree.codes]
    cases call <;> simp [exists_or, or_assoc, eq_comm]

/-- The code of a call is printed in one piece, at the depth of the conditions that it stands in. -/
theorem Dispatch.text_infix_lines {d : Dispatch} {c : OverrideCall} (h : c ∈ d.calls) :
    ∃ depth, c.text.lines.map (⟨·, depth⟩) <:+: d.lines := by
  induction d with
  | done => cases h
  | narrow var flag object target body rest ihb ihr =>
    rcases List.mem_append.1 h with h | h
    · obtain ⟨depth, hinfix⟩ := ihb h
      refine ⟨depth + 1, List.IsInfix.trans ?_ (List.prefix_append _ _).isInfix⟩
      refine List.IsInfix.trans ?_ ((List.suffix_cons _ _).isInfix.trans (List.prefix_append _ _).isInfix)
      have hindented := List.IsInfix.map (fun l : Line => { l with indent := l.indent + 1 }) hinfix
      rwa [List.map_map] at hindented
    · obtain ⟨depth, hinfix⟩ := ihr h
      exact ⟨depth, hinfix.trans (List.suffix_append _ _).isInfix⟩
  | leave call =>
    obtain rfl := List.mem_singleton.1 h
    exact ⟨0, List.infix_rfl⟩

/-- A method of a file calls an override: the code of the call is printed in the block of the method. -/
structure FileCode.CallsOverride (code : FileCode) (g : MethodCode) (c : OverrideCall) : Prop where
  mem : g ∈ code.methods
  call : c ∈ g.dispatch.calls
  opens : code.Opens g g.dispatch.block
  printed : ∃ depth, c.text.lines.map (⟨·, depth⟩) <:+: g.dispatch.block.lines

theorem FileCode.callsOverride {code : FileCode} {g : MethodCode} (hg : g ∈ code.methods) {c : OverrideCall}
    (hc : c ∈ g.dispatch.calls) : code.CallsOverride g c :=
  ⟨hg, hc, opens hg, g.dispatch.lines_eq ▸ Dispatch.text_infix_lines hc⟩

namespace ConstructorCode

theorem calls_infix_initLines (c : ConstructorCode) :
    (constructCalls c.profile receiverName).map (⟨·.text, 1⟩) <:+: c.initLines := by
  have hmap : ((constructCalls c.profile receiverName).map (⟨·.text, 1⟩ : HandleCall → Line)) =
      indented ((constructCalls c.profile receiverName).map fun call => line call.text) := by simp [indented, line]
  rw [hmap]
  exact infix_braced List.infix_rfl

theorem calls_infix_newLines (c : ConstructorCode) :
    (constructCalls c.profile c.objectVariable).map (⟨·.text, 1⟩) <:+: c.newLines := by
  have hmap : ((constructCalls c.profile c.objectVariable).map (⟨·.text, 1⟩ : HandleCall → Line)) =
      indented ((constructCalls c.profile c.objectVariable).map fun call => line call.text) := by simp [indented, line]
  rw [hmap]
  exact (infix_braced ⟨_, _, rfl⟩).trans (List.suffix_cons _ _).isInfix

end ConstructorCode

end Code

namespace Analysis

variable {a : Analysis} {settings : Settings} {code : FileCode}

/-- The file calls the override `m` of `d` once.  The call is in the block of the method of this name that an ancestor
declares, its code is the one that is registered for the override, and it hands on the parameters of this method to the
implementation of the override. -/
def ForwardsOverride (a : Analysis) (code : FileCode) (d : MeaningDecl) (m : MethodDecl) : Prop :=
  ∃ g c, code.CallsOverride g c ∧ c.meaning = d.name ∧ c.method = m.name ∧
    (∀ g' c', code.CallsOverride g' c' → c'.meaning = d.name → c'.method = m.name → g' = g ∧ c' = c) ∧
    (∃ above, a.forest.ascending d.name = .ok (above ++ [d.name]) ∧ g.meaning ∈ above) ∧
    (∃ b ∈ a.file.meanings, b.name = g.meaning ∧ g.decl ∈ b.methods ∧ g.decl.isOverride = false ∧
      g.decl.name = m.name) ∧
    (∃ w ∈ code.overrides, w.meaning = d.name ∧ w.name = overrideName c.meaning c.method ∧ w.decl = m) ∧
    (c.text = if c.hasResults then "return " ++ c.expression else c.expression ++ "\nreturn") ∧
    (∃ p ∈ a.profiles, ∃ o ∈ p.overrides, p.decl = d ∧ o.decl = m ∧
      (a.symbolCount ≤ 4294967296 → ∀ t, ∃ r, a.record t = .ok r ∧ r.Registers o c.text)) ∧
    PassesOn g.decl.params m.params [] c.arguments

theorem Complete.override_read (ha : a.Complete) {p : Profile} (hp : p ∈ a.profiles) {o : Override}
    (ho : o ∈ p.overrides) : ∃ f, Profile.readMethod p.name o.decl = .ok f ∧ f.sameTypes o.base = true := by
  obtain ⟨n, -, above, asc, subs, rfl⟩ := ha.exists_ofDecl hp
  exact Profile.ofDecl_overridesRead above n.decl asc subs o ho

/-- The arguments for an override are the parameters of its base. -/
theorem Complete.override_passesOn (ha : a.Complete) {p : Profile} (hp : p ∈ a.profiles) {o : Override}
    (ho : o ∈ p.overrides) : PassesOn o.base.decl.params o.decl.params [] o.call.arguments := by
  obtain ⟨q, hq, hbase, -⟩ := ha.override_spec hp ho
  obtain ⟨asc, us, -, hchain⟩ := ha.exists_chain_of_mem hq
  obtain ⟨-, -, hparse, hnamed, -⟩ := Profile.readMethod_ok ((hchain.consistent rfl).methods_read o.base hbase)
  obtain ⟨f, hread, hsame⟩ := ha.override_read hp ho
  obtain ⟨-, -, hparse', hnamed', -⟩ := Profile.readMethod_ok hread
  rw [Method.sameTypes, Bool.and_eq_true, beq_iff_eq] at hsame
  exact Signature.passesOn_args hparse hnamed hparse' hnamed' hsame.1

/-- A call in the code of a file is that of an override, in the block of the method that it overrides. -/
theorem Complete.exists_override_of_calls (ha : a.Complete) (hcode : a.fileCode settings = .ok code) {g : MethodCode}
    {c : OverrideCall} (h : code.CallsOverride g c) : ∃ p ∈ a.profiles, ∃ o ∈ p.overrides, ∃ q ∈ a.profiles,
      o.base ∈ q.methods ∧ a.methodCode q o.base = .ok g ∧ o.call = c ∧ c.meaning = p.name ∧
        c.method = o.decl.name := by
  obtain ⟨q, hq, f, hf, hfg⟩ := (ha.mem_methods hcode).1 h.mem
  obtain ⟨t, ht, hmethod⟩ := ha.exists_methodCode q f
  obtain rfl := Except.ok.inj (hmethod.symm.trans hfg)
  obtain ⟨path, hpath⟩ := Dispatch.mem_calls_ofTree.1 h.call
  have hcodeAt := (OverrideTree.mem_codes_iff (ha.downward_overrideTree ht)).1 hpath
  obtain ⟨p, hp, o, ho, rfl, -, hlast, rfl⟩ := ha.exists_override_of_codeAt hq hf ht hcodeAt
  obtain ⟨-, -, -, -, hname, -⟩ := ha.override_spec hp ho
  exact ⟨p, hp, o, ho, q, hq, hf, hmethod, rfl, by simp [Override.call, hlast], hname⟩

theorem Complete.forwardsOverride (ha : a.Complete) (hclean : a.findings = []) (hcode : a.fileCode settings = .ok code)
    {p : Profile} (hp : p ∈ a.profiles) {o : Override} (ho : o ∈ p.overrides) :
    a.ForwardsOverride code p.decl o.decl := by
  obtain ⟨asc, us, hasc, hchain⟩ := ha.exists_chain_of_mem hp
  obtain ⟨q, hqus, hbase, hname⟩ := hchain.exists_base rfl ho
  have hq : q ∈ a.profiles := hchain.mem_profiles (List.mem_append_left _ hqus)
  obtain ⟨hqdecl, -, hqmethods, -⟩ := ha.profile_clean hclean hq
  obtain ⟨t, ht, hmethod⟩ := ha.exists_methodCode q o.base
  obtain ⟨t', ht', hiff⟩ := ha.codeAt_iff hq hbase
  obtain rfl := Except.ok.inj (ht'.symm.trans ht)
  have hcall : o.call ∈ (Dispatch.ofTree o.base.params.names receiverName [] t').calls :=
    Dispatch.mem_calls_ofTree.2 ⟨o.path, (OverrideTree.mem_codes_iff (ha.downward_overrideTree ht')).2
      ((hiff o.path o.call).2 ⟨p, hp, o, ho, rfl, rfl, rfl⟩)⟩
  have hmeaning : o.call.meaning = p.name := by
    obtain ⟨-, -, -, -, -, -, hlast⟩ := ha.override_spec hp ho
    simp [Override.call, hlast]
  refine ⟨_, o.call, FileCode.callsOverride ((ha.mem_methods hcode).2 ⟨q, hq, o.base, hbase, hmethod⟩) hcall, hmeaning,
    hname, ?_, ?_, ?_, ?_, o.call.text_eq, ⟨p, hp, o, ho, rfl, rfl, fun hcount t => ?_⟩, ha.override_passesOn hp ho⟩
  · intro g' c' hcalls hmeaning' hname'
    obtain ⟨p', hp', o', ho', q', hq', hbase', hmethod', rfl, hp'name, ho'name⟩ :=
      ha.exists_override_of_calls hcode hcalls
    -- a meaning has one override of a name, and its base is a method of one meaning
    obtain rfl : p' = p := ha.profile_unique hp' hp (hp'name.symm.trans hmeaning')
    obtain rfl : o' = o := List.inj_on_of_nodup_map (hchain.consistent rfl).overrides_nodup ho' ho
      (ho'name.symm.trans hname')
    obtain rfl : q' = q := ha.profile_unique hq' hq
      ((ha.method_owner hq' hbase').symm.trans (ha.method_owner hq hbase))
    exact ⟨Except.ok.inj (hmethod'.symm.trans hmethod), rfl⟩
  · have hnames := hchain.names_eq
    rw [List.map_append, List.map_singleton] at hnames
    exact ⟨us.map (·.name), (ha.sound.ascending_eq hasc).trans (congrArg _ hnames.symm), List.mem_map_of_mem hqus⟩
  · have hmem : o.base.decl ∈ q.decl.methods.filter (!·.isOverride) := hqmethods ▸ List.mem_map_of_mem hbase
    obtain ⟨hmem, hkind⟩ := List.mem_filter.1 hmem
    exact ⟨q.decl, hqdecl, rfl, hmem, by simpa using hkind, hname⟩
  · refine ⟨_, ha.overrideCode_mem hcode hp ho, rfl, ?_, rfl⟩
    rw [hmeaning]
    exact congrArg (overrideName p.name) hname.symm
  · obtain ⟨r, hr, hregistered⟩ := ha.exists_registered t hcount
    exact ⟨r, hr, hregistered.registers ha hp ho⟩

/-! ### Calls of constructors -/

/-- In the lines of a function that holds a handle in a variable the constructor function of a meaning is called once,
and the call hands on to it, after the handle, the parameters of the constructor. -/
def ForwardsConstructor (c : ConstructorCode) (printed : List Line) (var : Text) : Prop :=
  ∃ call ∈ constructCalls c.profile var, (constructCalls c.profile var).map (⟨·.text, 1⟩) <:+: printed ∧
    (∀ x ∈ constructCalls c.profile var, x.function = ctorName c.profile.name ↔ x = call) ∧
    ∃ arguments, call.text = call.function ++ call.typeArgs ++ "(" ++ arguments ++ ")" ∧
      PassesOn c.profile.ctor.decl.params c.profile.ctor.decl.params [.ident var] arguments

theorem function_eq_ctorName_iff (p : Profile) (var : Text) {x : HandleCall} (hx : x ∈ constructCalls p var) :
    x.function = ctorName p.name ↔ x = ⟨ctorName p.name, typeArgList p.ctor, var, [], p.ctor.params.args⟩ := by
  rw [constructCalls] at hx
  rcases List.mem_append.1 hx with hx | hx
  · -- the other call is that of an initializer
    cases hparent : p.parent? with
    | none => simp [hparent] at hx
    | some parent =>
      rw [hparent] at hx
      obtain rfl := List.mem_singleton.1 hx
      have hne : initName parent ≠ ctorName p.name := initName_ne_ctorName parent p.name
      simp [hne]
  · obtain rfl := List.mem_singleton.1 hx
    simp

theorem Complete.forwardsConstructor (ha : a.Complete) (hclean : a.findings = []) {c : ConstructorCode}
    (hp : c.profile ∈ a.profiles) {var : Text} (hvar : Host.IsName var) {printed : List Line}
    (hprinted : (constructCalls c.profile var).map (⟨·.text, 1⟩) <:+: printed) : ForwardsConstructor c printed var := by
  obtain ⟨n, -, above, asc, subs, hmade⟩ := ha.exists_ofDecl hp
  have hnamed : c.profile.ctor.params.unnamed = false := hmade ▸ Profile.ofDecl_ctor_named above n.decl asc subs
  have hparse := (ha.ctor_clean hclean hp).1
  rw [← ha.ctor_decl hp] at hparse
  refine ⟨_, List.mem_append_right _ (List.mem_singleton_self _), hprinted,
    fun x => function_eq_ctorName_iff c.profile var, _, rfl, ?_⟩
  -- the handle itself is passed, and none that is embedded in it
  have hhandle : var ++ selections [] = var := List.append_nil var
  rw [hhandle]
  exact Signature.passesOn_andMore hparse hnamed hvar

theorem isName_objectVariable (c : ConstructorCode) : Host.IsName c.objectVariable :=
  Host.isName_freeName (by decide +kernel) (by decide) _

/-! ### The whole file -/

/-- Forwarding of parameters.  Every override of a file is called in one place, with the parameters of its base, and the
initializer and the factory of every meaning call its constructor with the parameters that it has. -/
theorem exists_forwarding {file : DeclFile} (h : ofFile settings file = .ok a) (hclean : a.findings = []) :
    ∃ code, a.fileCode settings = .ok code ∧
      (∀ d ∈ file.meanings, ∀ m ∈ d.methods, m.isOverride = true → a.ForwardsOverride code d m) ∧
      ∀ d ∈ file.meanings, ∃ part ∈ code.meanings, (∀ c ∈ code.meanings, c.handle.meaning = d.name ↔ c = part) ∧
        part.constructors.profile.decl = d ∧
        part.constructors.profile.ctor.decl = Profile.constructorDecl d ∧
        part.constructors.lines <:+: code.lines ∧
        ForwardsConstructor part.constructors part.constructors.initLines receiverName ∧
        ForwardsConstructor part.constructors part.constructors.newLines part.constructors.objectVariable := by
  obtain ⟨ha, rfl⟩ := complete_of_ofFile h
  obtain ⟨code, hcode⟩ := ha.exists_fileCode settings
  refine ⟨code, hcode, fun d hd m hm hkind => ?_, fun d hd => ?_⟩
  · obtain ⟨p, hp, rfl⟩ := ha.exists_profile_of_decl hclean hd
    obtain ⟨-, -, -, hoverrides⟩ := ha.profile_clean hclean hp
    obtain ⟨o, ho, rfl⟩ : ∃ o ∈ p.overrides, o.decl = m :=
      List.mem_map.1 (hoverrides ▸ List.mem_filter.2 ⟨hm, hkind⟩)
    exact ha.forwardsOverride hclean hcode hp ho
  · obtain ⟨p, hp, rfl, -, root, below, methods, -, hpart⟩ := ha.exists_codeOf hclean hcode hd
    refine ⟨_, hpart, ha.part_iff hcode hpart, rfl, ha.ctor_decl hp, ConstructorCode.lines_infix hpart, ?_, ?_⟩
    · exact ha.forwardsConstructor hclean hp (by decide +kernel) (ConstructorCode.calls_infix_initLines _)
    · exact ha.forwardsConstructor hclean hp (isName_objectVariable _) (ConstructorCode.calls_infix_newLines _)

/-- A method whose parameters share a type, and an override with other names for them, each with its own type. -/
def joins : DeclFile :=
  let join (isOverride : Bool) (params : Text) : MethodDecl :=
    { position := ⟨3, 2⟩, name := "Join", isOverride, doc := [], typeParams := [], params, results := [], body := [] }
  let meaning (line : Nat) (name parent : Text) (constructors : List ConstructorDecl) (methods : List MethodDecl) :
      MeaningDecl :=
    { position := ⟨line, 1⟩, name, parent, parentPosition := ⟨line, 1⟩, doc := [], fields := [], constructors, methods }
  let constructor : ConstructorDecl :=
    { position := ⟨6, 2⟩, typeParams := [], params := "n int, opts ...string", superArgs := none, body := [] }
  { name := "joins.mt"
    meanings := [meaning 1 "A" [] [] [join false "a, b int, xs ...string"],
      meaning 5 "B" "A" [constructor] [join true "x int, y int, rest ...string"]] }

theorem forwarding_joins : ∃ a code g c part, @ofFile .english {} joins = .ok a ∧ a.findings = [] ∧
    a.fileCode {} = .ok code ∧ code.CallsOverride g c ∧ c.meaning = "B" ∧ c.method = "Join" ∧
    readArguments? c.arguments = some ([Text.ofString "a", Text.ofString "b", Text.ofString "xs"].map .ident, true) ∧
    part ∈ code.meanings ∧ ∃ call ∈ constructCalls part.constructors.profile receiverName, ∃ arguments,
      call.text = ctorName "B" ++ call.typeArgs ++ "(" ++ arguments ++ ")" ∧ readArguments? arguments =
        some ([Text.ofString "self", Text.ofString "n", Text.ofString "opts"].map .ident, true) := by
  obtain ⟨a, ha, hclean⟩ := exists_clean (by decide +kernel : @cleanInOrder .english {} joins)
  obtain ⟨code, hcode, hoverrides, hconstructors⟩ := exists_forwarding ha hclean
  obtain ⟨d, hd, hname, hctor, m, hm, hkind, hmname, hparams⟩ : ∃ d ∈ joins.meanings, d.name = "B" ∧
      (Profile.constructorDecl d).params = "n int, opts ...string" ∧ ∃ m ∈ d.methods, m.isOverride = true ∧
        m.name = "Join" ∧ m.params = "x int, y int, rest ...string" := by decide +kernel
  have hbase : ∀ b ∈ joins.meanings, ∀ g ∈ b.methods, g.isOverride = false → g.params = "a, b int, xs ...string" := by
    decide +kernel
  obtain ⟨g, c, hcalls, hmeaning, hmethod, -, -, ⟨b, hb, -, hg, hdefines, -⟩, -, -, -, hpasses⟩ :=
    hoverrides d hd m hm hkind
  rw [(complete_of_ofFile ha).2] at hb
  rw [hbase b hb g.decl hg hdefines, hparams] at hpasses
  obtain ⟨part, hpart, -, rfl, hdecl, -, ⟨call, hcall, -, hfunction, arguments, htext, hconstructs⟩, -⟩ :=
    hconstructors d hd
  have hself : part.constructors.profile.name = "B" := hname
  rw [hdecl, hctor] at hconstructs
  have hnames : (readParameters? "a, b int, xs ...string").map (·.map (·.name)) =
      some ([Text.ofString "a", Text.ofString "b", Text.ofString "xs"].map some) := by decide +kernel
  have hlast : (readParameters? "x int, y int, rest ...string").map
      (fun qs => qs.getLast?.any (·.type.isEllipsis)) = some true := by decide +kernel
  have hnames' : (readParameters? "n int, opts ...string").map (·.map (·.name)) =
      some ([Text.ofString "n", Text.ofString "opts"].map some) := by decide +kernel
  have hlast' : (readParameters? "n int, opts ...string").map (fun qs => qs.getLast?.any (·.type.isEllipsis)) =
      some true := by decide +kernel
  refine ⟨a, code, g, c, part, ha, hclean, hcode, hcalls, hmeaning.trans hname, hmethod.trans hmname,
    hpasses.readArguments? hnames hlast, hpart, call, hcall, arguments, ?_, hconstructs.readArguments? hnames' hlast'⟩
  have hctorName : call.function = ctorName "B" := hself ▸ (hfunction call hcall).2 rfl
  rw [htext, hctorName]

end Analysis

end MeaningForest
