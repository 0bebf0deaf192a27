import MeaningForest.Proofs.Methods
import MeaningForest.Proofs.Symbols

/-!
# Which override applies

The overrides of a method are registered one by one, in any order, each for a path of meanings below the one that
defines the method.  For an object the longest registered path counts that its ancestry goes down.

* `OverrideTree.resolve_eq_some_iff`: a tree resolves a path to the code at the longest of its beginnings with code.
* `SymbolTable.resolves_longest`: so does a method after any registrations, and another one changes nothing for an
  ancestry that a longer path applies to, or that does not begin with the new path.
-/

namespace MeaningForest

theorem after?_of_notMem {α : Type} [DecidableEq α] {a : α} {l : List α} (h : a ∉ l) : after? a l = none := by
  induction l with
  | nil => rfl
  | cons b l ih =>
    rw [List.mem_cons, not_or] at h
    rw [after?, if_neg (Ne.symm h.1)]
    exact ih h.2

namespace OverrideTree

variable {κ γ : Type}

/-- The longest of the beginnings of a path for which there is code, and this code. -/
structure Farthest (code : List κ → Option γ) (path best : List κ) (c : γ) : Prop where
  beginning : best <+: path
  code_eq : code best = some c
  longest : ∀ q, q <+: path → (code q).isSome → q.length ≤ best.length

theorem getLast?_inits_eq_some_iff (code : List κ → Option γ) (path : List κ) (c : γ) :
    (path.inits.filterMap code).getLast? = some c ↔ ∃ best, Farthest code path best c := by
  induction path using List.reverseRecOn with
  | nil =>
    constructor
    · intro h
      exact ⟨[], List.prefix_refl _, by simpa using h, fun q hq _ => hq.length_le⟩
    · rintro ⟨best, hbest, hcode, -⟩
      obtain rfl := List.prefix_nil.1 hbest
      simp [hcode]
  | append_singleton path k ih =>
    have hinits : (path ++ [k]).inits = path.inits ++ [path ++ [k]] := by simp [List.inits_append]
    rw [hinits, List.filterMap_append, List.getLast?_append]
    cases hwhole : code (path ++ [k]) with
    | some c' =>
      -- nothing is longer than the whole path
      have hlast : ([path ++ [k]].filterMap code).getLast? = some c' := by simp [hwhole]
      rw [hlast, Option.some_or]
      constructor
      · rintro h
        exact ⟨_, List.prefix_refl _, hwhole.trans h, fun q hq _ => hq.length_le⟩
      · rintro ⟨best, hbest, hcode, hlongest⟩
        have hlength := hlongest _ (List.prefix_refl _) (by simp [hwhole])
        rw [hbest.eq_of_length_le hlength, hwhole] at hcode
        exact hcode
    | none =>
      have hlast : ([path ++ [k]].filterMap code).getLast? = none := by simp [hwhole]
      have hshorter : ∀ {q c}, q <+: path ++ [k] → code q = some c → q <+: path := by
        intro q c hq hc
        refine (List.prefix_concat_iff.1 hq).resolve_left ?_
        rintro rfl
        cases hwhole.symm.trans hc
      rw [hlast, Option.none_or, ih]
      constructor
      · rintro ⟨best, hbest, hcode, hlongest⟩
        refine ⟨best, hbest.trans (List.prefix_append _ _), hcode, fun q hq hsome => ?_⟩
        obtain ⟨c', hc'⟩ := Option.isSome_iff_exists.1 hsome
        exact hlongest q (hshorter hq hc') hsome
      · rintro ⟨best, hbest, hcode, hlongest⟩
        exact ⟨best, hshorter hbest hcode, hcode, fun q hq => hlongest q (hq.trans (List.prefix_append _ _))⟩

variable [DecidableEq κ] {t u : OverrideTree κ γ} {path best : List κ} {c : γ}

theorem resolve_eq_some_iff : t.resolve path = some c ↔ ∃ best, Farthest t.codeAt path best c := by
  rw [resolve_eq_getLast?]
  exact getLast?_inits_eq_some_iff _ _ _

theorem resolve_eq_none_iff : t.resolve path = none ↔ ∀ q, q <+: path → t.codeAt q = none := by
  rw [resolve_eq_getLast?, List.getLast?_eq_none_iff, List.filterMap_eq_nil_iff]
  simp only [List.mem_inits]

/-- The longest beginning stays the same if the code of another path changes, unless it is a longer one. -/
theorem Farthest.of_other {code code' : List κ → Option γ} {new : List κ} (h : Farthest code path best c)
    (hother : ∀ q, q ≠ new → code' q = code q) (hnew : new <+: path → new.length < best.length) :
    Farthest code' path best c := by
  have hne : best ≠ new := by
    rintro rfl
    exact Nat.lt_irrefl _ (hnew h.beginning)
  refine ⟨h.beginning, (hother best hne).trans h.code_eq, fun q hq hsome => ?_⟩
  by_cases hqnew : q = new
  · subst hqnew
    exact (hnew hq).le
  · exact h.longest q hq (hother q hqnew ▸ hsome)

/-- Registering changes nothing for a path that does not begin with the new one, or has a longer beginning with code. -/
theorem resolve_register_of_longer (code : γ) {k : κ} {new : List κ} (h : k :: new <+: path →
    ∃ q, q <+: path ∧ (k :: new).length < q.length ∧ (t.codeAt q).isSome) :
    (t.register code k new).resolve path = t.resolve path := by
  have hother : ∀ q, q ≠ k :: new → (t.register code k new).codeAt q = t.codeAt q := fun q hq => by
    rw [codeAt_register, if_neg hq]
  ext c
  rw [resolve_eq_some_iff, resolve_eq_some_iff]
  constructor
  · rintro ⟨best, hbest⟩
    refine ⟨best, hbest.of_other (fun q hq => (hother q hq).symm) fun hnew => ?_⟩
    obtain ⟨q, hq, hlength, hsome⟩ := h hnew
    have hne : q ≠ k :: new := fun he => Nat.lt_irrefl _ (he ▸ hlength)
    exact hlength.trans_le (hbest.longest q hq (hother q hne ▸ hsome))
  · rintro ⟨best, hbest⟩
    refine ⟨best, hbest.of_other hother fun hnew => ?_⟩
    obtain ⟨q, hq, hlength, hsome⟩ := h hnew
    exact hlength.trans_le (hbest.longest q hq hsome)

end OverrideTree

/-! ### Registrations -/

/-- The code of an override and the path that it is registered for. -/
structure Registration where
  path : List Symbol
  code : Text
  deriving DecidableEq, Repr

namespace Registration

/-- The code that was registered last for a path. -/
def latest (rs : List Registration) (path : List Symbol) : Option Text :=
  ((rs.filter (·.path == path)).getLast?).map (·.code)

theorem latest_concat (rs : List Registration) (r : Registration) (path : List Symbol) :
    latest (rs ++ [r]) path = if path = r.path then some r.code else latest rs path := by
  rw [latest, List.filter_append]
  by_cases hpath : path = r.path
  · simp [hpath]
  · have hnone : [r].filter (·.path == path) = [] := by simpa using Ne.symm hpath
    rw [hnone, List.append_nil, if_neg hpath, latest]

theorem isSome_latest {rs : List Registration} {path : List Symbol} :
    (latest rs path).isSome ↔ path ∈ rs.map (·.path) := by
  simp [latest]

/-- The path that counts for an object: the longest registered one that the way down to its meaning begins with. -/
structure Governs (rs : List Registration) (way path : List Symbol) : Prop where
  registered : path ∈ rs.map (·.path)
  beginning : path <+: way
  longest : ∀ r ∈ rs, r.path <+: way → r.path.length ≤ path.length

theorem farthest_latest {rs : List Registration} {way path : List Symbol} {code : Text} :
    OverrideTree.Farthest (latest rs) way path code ↔ Governs rs way path ∧ latest rs path = some code := by
  constructor
  · intro h
    refine ⟨⟨isSome_latest.1 (by simp [h.code_eq]), h.beginning, fun r hr hway => ?_⟩, h.code_eq⟩
    exact h.longest _ hway (isSome_latest.2 (List.mem_map_of_mem hr))
  · rintro ⟨h, hcode⟩
    refine ⟨h.beginning, hcode, fun q hq hsome => ?_⟩
    obtain ⟨r, hr, rfl⟩ := List.mem_map.1 (isSome_latest.1 hsome)
    exact h.longest r hr hq

end Registration

namespace SymbolTable

open Registration

variable {t : SymbolTable} {s : Symbol}

/-- Registers overrides of a method, one after the other. -/
def registerAll (t : SymbolTable) (s : Symbol) (rs : List Registration) : Except Fault SymbolTable :=
  rs.foldlM (fun t r => t.registerOverride s r.path r.code) t

/-- A method as it was created, with the given overrides registered. -/
structure HasRegistered (t : SymbolTable) (s definedIn : Symbol) (rs : List Registration) : Prop where
  read : ∃ d, t.method s = .ok d ∧ d.definedIn = definedIn ∧ ∀ path, d.mapping.codeAt path = latest rs path

theorem HasRegistered.register {definedIn : Symbol} {rs : List Registration} (h : t.HasRegistered s definedIn rs)
    {r : Registration} (hr : r.path ≠ []) :
    ∃ t', t.registerOverride s r.path r.code = .ok t' ∧ t'.HasRegistered s definedIn (rs ++ [r]) := by
  obtain ⟨d, hd, hdefined, hcode⟩ := h.read
  obtain ⟨k, path, hpath⟩ := List.exists_cons_of_ne_nil hr
  obtain ⟨t', ht', -, hslot⟩ := registerOverride_spec hd r.code k path
  refine ⟨t', hpath ▸ ht', _, method_eq_ok.2 ((hslot s).trans (if_pos rfl)), hdefined, fun q => ?_⟩
  rw [OverrideTree.codeAt_register, latest_concat, hpath, hcode]

/-- Registering succeeds for any paths that are not empty. -/
theorem HasRegistered.registerAll {definedIn : Symbol} {rs : List Registration} (h : t.HasRegistered s definedIn rs)
    (more : List Registration) (hmore : ∀ r ∈ more, r.path ≠ []) :
    ∃ t', t.registerAll s more = .ok t' ∧ t'.HasRegistered s definedIn (rs ++ more) := by
  induction more generalizing t rs with
  | nil => exact ⟨t, rfl, by rwa [List.append_nil]⟩
  | cons r more ih =>
    obtain ⟨t₁, ht₁, h₁⟩ := h.register (hmore r (by simp))
    obtain ⟨t', ht', h'⟩ := ih h₁ fun x hx => hmore x (by simp [hx])
    refine ⟨t', ?_, by rwa [List.append_assoc] at h'⟩
    rw [SymbolTable.registerAll, List.foldlM_cons, ht₁]
    exact ht'

theorem resolveOverride_eq {d : MethodSlot} (hd : t.method s = .ok d) (asc : List Symbol) :
    t.resolveOverride s asc = .ok ((after? d.definedIn asc).bind d.mapping.resolve) := by
  rw [resolveOverride]
  cases asc with
  | nil => rfl
  | cons m asc =>
    rw [if_neg (by simp), hd]
    simp only [bind, Except.bind]
    cases after? d.definedIn (m :: asc) <;> rfl

/-- What a method resolves to for an object: the code that was registered last for the longest registered path that the
way from the meaning of the method down to that of the object begins with. -/
structure ResolvesLongest (t : SymbolTable) (s definedIn : Symbol) (rs : List Registration) : Prop where
  foreign : ∀ asc, definedIn ∉ asc → t.resolveOverride s asc = .ok none
  none : ∀ above way, definedIn ∉ above →
    (t.resolveOverride s (above ++ definedIn :: way) = .ok none ↔ ∀ r ∈ rs, ¬r.path <+: way)
  some : ∀ above way code, definedIn ∉ above → (t.resolveOverride s (above ++ definedIn :: way) = .ok (some code) ↔
    ∃ path, Governs rs way path ∧ latest rs path = some code)

theorem HasRegistered.resolvesLongest {definedIn : Symbol} {rs : List Registration}
    (h : t.HasRegistered s definedIn rs) : t.ResolvesLongest s definedIn rs := by
  obtain ⟨d, hd, rfl, hcode⟩ := h.read
  have hsame : d.mapping.codeAt = latest rs := funext hcode
  have hway : ∀ above way, d.definedIn ∉ above →
      t.resolveOverride s (above ++ d.definedIn :: way) = .ok (d.mapping.resolve way) := by
    intro above way habove
    rw [resolveOverride_eq hd, after?_append_cons habove, Option.bind_some]
  refine ⟨fun asc hasc => ?_, fun above way habove => ?_, fun above way code habove => ?_⟩
  · rw [resolveOverride_eq hd, after?_of_notMem hasc, Option.bind_none]
  · rw [hway above way habove, Except.ok.injEq, OverrideTree.resolve_eq_none_iff, hsame]
    constructor
    · intro hnone r hr hbeginning
      have hsome := isSome_latest.2 (List.mem_map_of_mem (f := (·.path)) hr)
      rw [hnone r.path hbeginning] at hsome
      cases hsome
    · intro hnone q hq
      by_contra hsome
      obtain ⟨r, hr, rfl⟩ := List.mem_map.1 (isSome_latest.1 (Option.isSome_iff_ne_none.2 hsome))
      exact hnone r hr hq
  · rw [hway above way habove, Except.ok.injEq, OverrideTree.resolve_eq_some_iff, hsame]
    simp only [farthest_latest]

/-- Another registration does not change what a method resolves to for an ancestry that a longer path applies to, or
that the new path does not lead down. -/
theorem HasRegistered.resolveOverride_register {definedIn : Symbol} {rs : List Registration}
    (h : t.HasRegistered s definedIn rs) {r : Registration} {t' : SymbolTable}
    (ht' : t.registerOverride s r.path r.code = .ok t') {asc : List Symbol}
    (hlonger : ∀ above way, asc = above ++ definedIn :: way → definedIn ∉ above → r.path <+: way →
      ∃ x ∈ rs, x.path <+: way ∧ r.path.length < x.path.length) :
    t'.resolveOverride s asc = t.resolveOverride s asc := by
  obtain ⟨d, hd, rfl, hcode⟩ := h.read
  cases hpath : r.path with
  | nil =>
    rw [hpath] at ht'
    cases ht'
  | cons k path =>
    rw [hpath] at ht' hlonger
    obtain ⟨t₁, ht₁, -, hslot⟩ := registerOverride_spec hd r.code k path
    obtain rfl := Except.ok.inj (ht₁.symm.trans ht')
    have hd' := method_eq_ok.2 ((hslot s).trans (if_pos rfl))
    rw [resolveOverride_eq hd, resolveOverride_eq hd']
    by_cases hmem : d.definedIn ∈ asc
    · obtain ⟨above, way, rfl, habove⟩ := List.eq_append_cons_of_mem hmem
      rw [after?_append_cons habove, Option.bind_some, Option.bind_some]
      refine congrArg _ (OverrideTree.resolve_register_of_longer r.code fun hbeginning => ?_)
      obtain ⟨x, hx, hxway, hlength⟩ := hlonger above way rfl habove hbeginning
      exact ⟨x.path, hxway, hlength, hcode x.path ▸ isSome_latest.2 (List.mem_map_of_mem hx)⟩
    · rw [after?_of_notMem hmem, Option.bind_none, Option.bind_none]

/-- The overrides of a method.  Registering them succeeds, and then the method resolves to the code that was registered
last for the longest path that applies.  One more registration changes nothing for an ancestry that the new path does
not lead down, or that a longer one applies to. -/
theorem resolves_longest {d : MethodSlot} (hd : t.method s = .ok d) (hnew : d.mapping = .nil)
    (rs : List Registration) (hrs : ∀ r ∈ rs, r.path ≠ []) :
    ∃ t', t.registerAll s rs = .ok t' ∧ t'.ResolvesLongest s d.definedIn rs ∧
      ∀ r : Registration, r.path ≠ [] → ∃ t'', t'.registerOverride s r.path r.code = .ok t'' ∧
        ∀ asc, (∀ above way, asc = above ++ d.definedIn :: way → d.definedIn ∉ above → r.path <+: way →
          ∃ x ∈ rs, x.path <+: way ∧ r.path.length < x.path.length) →
            t''.resolveOverride s asc = t'.resolveOverride s asc := by
  have hempty : t.HasRegistered s d.definedIn [] :=
    ⟨d, hd, rfl, fun path => by rw [hnew, OverrideTree.codeAt_nil]; rfl⟩
  obtain ⟨t', ht', h⟩ := hempty.registerAll rs hrs
  refine ⟨t', ht', h.resolvesLongest, fun r hr => ?_⟩
  obtain ⟨t'', ht'', -⟩ := h.register hr
  exact ⟨t'', ht'', fun asc hlonger => h.resolveOverride_register ht'' hlonger⟩

/-- The symbol at an index of the first arena. -/
def symbolAt (i : UInt32) : Symbol := some ⟨0, i, 1⟩

/-- Meanings `A` to `D`, and a method that `A` defines. -/
def drawing : SymbolTable :=
  { arenas := [{ id := 0, slots := [.meaning { name := "A" }, .meaning { name := "B" }, .meaning { name := "C" },
      .meaning { name := "D" }, .method { name := "draw", definedIn := symbolAt 0, doc := [] }] }] }

/-- The path with a gap is registered first, and the code of the short one is replaced; the gap has no code of its own,
and below it the long path counts. -/
theorem resolves_longest_drawing : ∃ t', drawing.registerAll (symbolAt 4)
      [⟨[symbolAt 1, symbolAt 2, symbolAt 3], "deep"⟩, ⟨[symbolAt 1], "old"⟩, ⟨[symbolAt 1], "new"⟩] = .ok t' ∧
    t'.resolveOverride (symbolAt 4) ([0, 1, 2].map symbolAt) = .ok (some "new") ∧
    t'.resolveOverride (symbolAt 4) ([0, 1, 2, 3].map symbolAt) = .ok (some "deep") ∧
    t'.resolveOverride (symbolAt 4) ([0, 2, 3].map symbolAt) = .ok none ∧
    t'.resolveOverride (symbolAt 4) ([1, 2].map symbolAt) = .ok none ∧
    ∃ t'', t'.registerOverride (symbolAt 4) [symbolAt 1] "newer" = .ok t'' ∧
      t''.resolveOverride (symbolAt 4) ([0, 1, 2, 3].map symbolAt) = .ok (some "deep") := by
  obtain ⟨d, hd, hnew, hdefined⟩ : ∃ d, drawing.method (symbolAt 4) = .ok d ∧ d.mapping = .nil ∧
      d.definedIn = symbolAt 0 := ⟨_, rfl, rfl, rfl⟩
  obtain ⟨t', ht', hresolves, hmore⟩ := resolves_longest hd hnew
    [⟨[symbolAt 1, symbolAt 2, symbolAt 3], "deep"⟩, ⟨[symbolAt 1], "old"⟩, ⟨[symbolAt 1], "new"⟩] (by decide)
  rw [hdefined] at hresolves hmore
  have hdeep := (hresolves.some [] [symbolAt 1, symbolAt 2, symbolAt 3] "deep" (by decide)).2
    ⟨[symbolAt 1, symbolAt 2, symbolAt 3], ⟨by decide, by decide, by decide⟩, by decide⟩
  obtain ⟨t'', ht'', hsame⟩ := hmore ⟨[symbolAt 1], "newer"⟩ (by decide)
  refine ⟨t', ht', ?_, hdeep, ?_, hresolves.foreign _ (by decide), t'', ht'', ?_⟩
  · exact (hresolves.some [] [symbolAt 1, symbolAt 2] "new" (by decide)).2
      ⟨[symbolAt 1], ⟨by decide, by decide, by decide⟩, by decide⟩
  · exact (hresolves.none [] [symbolAt 2, symbolAt 3] (by decide)).2 (by decide)
  · refine (hsame _ fun above way hasc habove _ => ?_).trans hdeep
    obtain rfl : above = [] := by
      cases above with
      | nil => rfl
      | cons m above => exact absurd (by simp [← (List.cons.inj hasc).1]) habove
    obtain rfl := (List.cons.inj hasc).2
    exact ⟨⟨[symbolAt 1, symbolAt 2, symbolAt 3], "deep"⟩, by decide, List.prefix_refl _, by decide⟩

end SymbolTable

end MeaningForest
