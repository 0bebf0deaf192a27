import MeaningForest.Proofs.Profile

/-!
# Names on a handle type

A name on a handle type belongs to members of one kind, and no ancestor blocks it (`Exclusive`, `ofDecl_exclusive`).
Without findings all reserved names are taken (`ofDecl_reserved`), so that no field has one of them.
-/

namespace MeaningForest.Profile

variable {lang : Language} {above : List Profile}

theorem conflict?_eq_none {p : Profile} {kind : MemberKind} {names : List Text} :
    p.conflict? above kind names = none ↔
      ∀ name ∈ names, ∀ e ∈ above.flatMap (·.members) ++ p.members, e.blocks p.name name kind = false := by
  simp only [conflict?, List.findSome?_eq_none_iff, Option.map_eq_none_iff, List.find?_eq_none, Bool.not_eq_true]

variable (above) in
/-- All members belong to the meaning; those of one name are of one kind; none is blocked by an ancestor; and every
field has its getter. -/
structure Exclusive (p : Profile) : Prop where
  owner : ∀ e ∈ p.members, e.owner = p.name
  same_kind : ∀ e ∈ p.members, ∀ e' ∈ p.members, e.name = e'.name → e.kind = e'.kind
  free : ∀ e ∈ p.members, ∀ x ∈ above.flatMap (·.members), x.blocks p.name e.name e.kind = false
  getter : ∀ f ∈ p.fields, ⟨p.name, f.name, .accessor⟩ ∈ p.members

namespace Exclusive

theorem of_same {p q : Profile} (h : Exclusive above p) (hname : q.name = p.name) (hmembers : q.members = p.members)
    (hfields : q.fields = p.fields) : Exclusive above q := by
  constructor
  · rw [hmembers, hname]; exact h.owner
  · rw [hmembers]; exact h.same_kind
  · rw [hmembers, hname]; exact h.free
  · rw [hmembers, hname, hfields]; exact h.getter

/-- Names that are free can be taken. -/
theorem add {p q : Profile} (h : Exclusive above p) {kind : MemberKind} {names : List Text}
    (hfree : p.conflict? above kind names = none) (hname : q.name = p.name)
    (hmembers : q.members = p.members ++ p.entries kind names)
    (hfields : ∀ f ∈ q.fields, f ∈ p.fields ∨ ⟨p.name, f.name, .accessor⟩ ∈ p.entries kind names) :
    Exclusive above q := by
  rw [conflict?_eq_none] at hfree
  have hentry : ∀ e ∈ p.entries kind names, e.owner = p.name ∧ e.name ∈ names ∧ e.kind = kind := by
    intro e he
    obtain ⟨name, hmem, rfl⟩ := List.mem_map.1 he
    exact ⟨rfl, hmem, rfl⟩
  -- a member that is there blocks its name for every other one of the same meaning
  have hne : ∀ e ∈ p.members, ∀ e' ∈ p.entries kind names, e.name ≠ e'.name := by
    intro e he e' he' heq
    have := hfree _ (hentry e' he').2.1 e (List.mem_append_right _ he)
    simp [Member.blocks, heq, h.owner e he] at this
  constructor
  · rw [hmembers, hname]
    intro e he
    rcases List.mem_append.1 he with he | he
    · exact h.owner e he
    · exact (hentry e he).1
  · rw [hmembers]
    intro e he e' he' heq
    rcases List.mem_append.1 he with he | he <;> rcases List.mem_append.1 he' with he' | he'
    · exact h.same_kind e he e' he' heq
    · exact absurd heq (hne e he e' he')
    · exact absurd heq.symm (hne e' he' e he)
    · rw [(hentry e he).2.2, (hentry e' he').2.2]
  · rw [hmembers, hname]
    intro e he x hx
    rcases List.mem_append.1 he with he | he
    · exact h.free e he x hx
    · obtain ⟨-, hmem, hkind⟩ := hentry e he
      rw [hkind]
      exact hfree e.name hmem x (List.mem_append_left _ hx)
  · rw [hmembers, hname]
    intro f hf
    rcases hfields f hf with hf | hf
    · exact List.mem_append_left _ (h.getter f hf)
    · exact List.mem_append_right _ hf

theorem reserve {p : Profile} (h : Exclusive above p) (name : Text) : Exclusive above (p.reserve above name) := by
  rcases p.reserve_cases above name with ⟨problem, he⟩ | ⟨hfree, he⟩
  · exact he ▸ h.of_same rfl rfl rfl
  · exact he ▸ h.add hfree rfl rfl fun _ hf => .inl hf

theorem addField {p : Profile} (h : Exclusive above p) (d : FieldDecl) : Exclusive above (p.addField above d) := by
  rcases p.addField_cases above d with ⟨problem, he⟩ | ⟨-, hfree, he⟩
  · exact he ▸ h.of_same rfl rfl rfl
  · rw [he]
    refine h.add hfree rfl rfl fun f hf => ?_
    rcases List.mem_append.1 hf with hf | hf
    · exact .inl hf
    · exact .inr (by simp [List.mem_singleton.1 hf, entries, slotOf])

theorem addMethod {p : Profile} (h : Exclusive above p) (d : MethodDecl) : Exclusive above (p.addMethod above d) := by
  rcases p.addMethod_cases above d with ⟨problem, he⟩ | ⟨f, -, -, -, -, hfree, he⟩ | ⟨f, base, -, -, -, -, -, he⟩
  · exact he ▸ h.of_same rfl rfl rfl
  · exact he ▸ h.add hfree rfl rfl fun _ hf => .inl hf
  · exact he ▸ h.of_same rfl rfl rfl

theorem setConstructor {p : Profile} (h : Exclusive above p) : Exclusive above (p.setConstructor above) := by
  obtain ⟨ctor, fs, -, he⟩ := setConstructor_frame above p
  exact he ▸ h.of_same rfl rfl rfl

/-- A field has no name that an ancestor or the meaning itself has for something else. -/
theorem field_ne {p : Profile} (h : Exclusive above p) {f : FieldSlot} (hf : f ∈ p.fields) {e : Member}
    (he : e ∈ above.flatMap (·.members) ++ p.members) (hkind : e.kind ≠ .accessor) : f.name ≠ e.name := by
  intro heq
  rcases List.mem_append.1 he with he | he
  · have := h.free _ (h.getter f hf) e he
    simp [Member.blocks, heq, hkind] at this
  · exact hkind (h.same_kind e he _ (h.getter f hf) heq.symm)

end Exclusive

theorem ofDecl_exclusive (d : MeaningDecl) (asc subs : List Text) : Exclusive above (ofDecl above d asc subs) := by
  simp only [ofDecl]
  apply foldl_keeps (P := Exclusive above) fun _ h d => Exclusive.addMethod h d
  apply Exclusive.setConstructor
  apply foldl_keeps (P := Exclusive above) fun _ h d => Exclusive.addField h d
  apply foldl_keeps (P := Exclusive above) fun _ h name => Exclusive.reserve h name
  constructor <;> simp

/-- Without findings all reserved names are taken. -/
theorem ofDecl_reserved {d : MeaningDecl} {asc subs : List Text} (h : (ofDecl above d asc subs).findings = [])
    {name : Text} (hname : name ∈ (ofDecl above d asc subs).reservedNames) :
    ⟨d.name, name, .generated⟩ ∈ (ofDecl above d asc subs).members := by
  have hreserved : ∀ p q : Profile, p.ascending = q.ascending → p.submeanings = q.submeanings →
      p.reservedNames = q.reservedNames := by
    intro p q hasc hsubs
    rw [reservedNames, reservedNames, parent?, parent?, hasc, hsubs]
  simp only [ofDecl] at h hname ⊢
  obtain ⟨ms₁, fs₁, h₁, hall⟩ := foldl_reserve_frame above
    (reservedNames { decl := d, ascending := asc, submeanings := subs, ctor := { decl := constructorDecl d } })
    { decl := d, ascending := asc, submeanings := subs, ctor := { decl := constructorDecl d } }
  rw [h₁] at h hname ⊢
  obtain ⟨ms₂, fl, fs₂, h₂, -⟩ := foldl_addField_frame above d.fields _
  rw [h₂] at h hname ⊢
  obtain ⟨ctor, fs₃, -, h₃⟩ := setConstructor_frame above _
  rw [h₃] at h hname ⊢
  obtain ⟨ms₄, me, ov, fs₄, h₄, -⟩ := foldl_addMethod_frame above d.methods _
  rw [h₄] at h hname ⊢
  simp only [List.append_eq_nil_iff] at h
  simp only [hall h.1.1.1.2, List.mem_append]
  exact .inl (.inl (.inr (List.mem_map_of_mem ((hreserved _ _ rfl rfl) ▸ hname))))

end MeaningForest.Profile
