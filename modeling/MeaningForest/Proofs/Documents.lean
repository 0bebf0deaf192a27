import MeaningForest.Declaration.Document
import MeaningForest.Proofs.Decoding
import MeaningForest.Proofs.Unplaced

/-!
# Declaration documents

A document holds the texts of a declaration file (`DeclFile.Written`): each list is a sequence, each declaration is a
mapping with its texts under their keys, and what is empty may be left out.  Decoding gives the file back, with the
places of the document (`DeclFile.Written.exists_decode`).
-/

namespace MeaningForest

open Yaml DocumentReader

open Yaml.Node (KeyedPart)

open Yaml.Decode (Gives)

/-! ### What documents hold -/

def ImportDecl.parts (d : ImportDecl) : List (KeyedPart ImportDecl) :=
  [.text "alias" (·.localName) d, .text "path" (·.path) d]

/-- An import is a mapping, or its path alone if it has no local name. -/
def ImportDecl.Written (d : ImportDecl) (n : Node) : Prop :=
  n.Has d.parts ⟨.none, [], []⟩ ∨ d.localName = [] ∧ n.HasText d.path

def FieldDecl.parts (d : FieldDecl) : List (KeyedPart FieldDecl) :=
  [.text "name" (·.name) d, .text "type" (·.type) d, .text "default" (·.default) d, .bool "ref" (·.isRef) d]

def FieldDecl.Written (d : FieldDecl) (n : Node) : Prop := n.Has d.parts ⟨.none, [], false, [], []⟩

/-- The arguments for the parent's constructor are there if it is called, also if they are empty. -/
def ConstructorDecl.parts (d : ConstructorDecl) : List (KeyedPart ConstructorDecl) :=
  [.text "type_params" (·.typeParams) d, .text "params" (·.params) d,
    ⟨"super", fun n => ∃ args, d.superArgs = some args ∧ n.HasText args, (·.superArgs = d.superArgs), fun _ => True⟩,
    .text "body" (·.body) d]

def ConstructorDecl.Written (d : ConstructorDecl) (n : Node) : Prop := n.Has d.parts ⟨.none, [], [], none, []⟩

def MethodDecl.parts (d : MethodDecl) : List (KeyedPart MethodDecl) :=
  [.text "name" (·.name) d, .text "doc" (·.doc) d, .bool "override" (·.isOverride) d,
    .text "type_params" (·.typeParams) d, .text "params" (·.params) d, .text "results" (·.results) d,
    .text "body" (·.body) d]

def MethodDecl.Written (d : MethodDecl) (n : Node) : Prop := n.Has d.parts ⟨.none, [], false, [], [], [], [], []⟩

/-- There is a key for one constructor only; it is decoded into what is there already, which is nothing. -/
def MeaningDecl.parts (d : MeaningDecl) : List (KeyedPart MeaningDecl) :=
  [.text "name" (·.name) d, .text "extends" (·.parent) d, .text "doc" (·.doc) d,
    .items "fields" FieldDecl.Written FieldDecl.unplaced (·.fields) d,
    ⟨"constructor", fun n => ∃ c, d.constructors = [c] ∧ c.Written n,
      fun v => v.constructors.map ConstructorDecl.unplaced = d.constructors.map ConstructorDecl.unplaced,
      (·.constructors = [])⟩,
    .items "methods" MethodDecl.Written MethodDecl.unplaced (·.methods) d]

def MeaningDecl.Written (d : MeaningDecl) (n : Node) : Prop := n.Has d.parts ⟨.none, [], [], .none, [], [], [], []⟩

/-- The name of the file is no part of the document. -/
def DeclFile.parts (f : DeclFile) : List (KeyedPart DeclFile) :=
  [⟨[], fun _ => False, (·.name = f.name), fun _ => True⟩, .text "package" (·.package) f, .text "arena" (·.arena) f,
    .items "imports" ImportDecl.Written ImportDecl.unplaced (·.imports) f,
    .items "meanings" MeaningDecl.Written MeaningDecl.unplaced (·.meanings) f]

/-- A node holds the texts of a declaration file. -/
def DeclFile.Written (f : DeclFile) (n : Node) : Prop := n.Has f.parts { name := f.name }

/-! ### Decoding -/

namespace DocumentReader

theorem textOr_gives {t : Text} {n : Node} (old : Text) (h : n.HasText t) : Gives (textOr old n) (· = t) := by
  refine (Gives.text? _ h).bind ?_
  rintro _ rfl
  exact Gives.pure rfl

theorem boolOr_gives {b : Bool} {n : Node} (old : Bool) (h : n.HasBool b) : Gives (boolOr old n) (· = b) := by
  refine (Gives.bool? h).bind ?_
  rintro _ rfl
  exact Gives.pure rfl

/-- Items that are each decoded but for what is forgotten. -/
theorem items_gives {σ : Type} {item : Node → Decode (Option σ)} {holds : σ → Node → Prop} {forget : σ → σ} {l : List σ}
    {n : Node} (type : Text) (hn : n.HasItems holds l)
    (hitem : ∀ d m, holds d m → Gives (item m) fun o => ∃ v, o = some v ∧ forget v = forget d) :
    Gives (Decode.list type item n) fun vs => vs.map forget = l.map forget := by
  refine (Gives.list type hn fun d _ m hm => hitem d m hm).mono fun vs hvs => ?_
  clear hn
  induction hvs with
  | nil => rfl
  | cons h _ ih => rw [List.map_cons, List.map_cons, h, ih]

theorem importType_sets (d : ImportDecl) : importType.Sets d.parts ⟨.none, [], []⟩ := by
  refine .of_keys rfl (by decide) (by decide) (by simp [ImportDecl.parts, KeyedPart.text])
    fun p hp n v hn _ => ?_
  simp only [ImportDecl.parts, List.mem_cons, List.not_mem_nil, or_false] at hp ⊢
  rcases hp with rfl | rfl
  all_goals
    refine (textOr_gives _ hn).bind fun _ h => Gives.pure ⟨h, fun q hq hne => ?_⟩
    rcases hq with rfl | rfl
    all_goals first | exact ⟨id, id⟩ | exact absurd rfl hne

theorem fieldType_sets (d : FieldDecl) : fieldType.Sets d.parts ⟨.none, [], false, [], []⟩ := by
  refine .of_keys rfl (by decide) (by decide) (by simp [FieldDecl.parts, KeyedPart.text, KeyedPart.bool])
    fun p hp n v hn _ => ?_
  simp only [FieldDecl.parts, List.mem_cons, List.not_mem_nil, or_false] at hp ⊢
  rcases hp with rfl | rfl | rfl | rfl
  all_goals
    first
      | refine (textOr_gives _ hn).bind fun _ h => Gives.pure ⟨h, fun q hq hne => ?_⟩
      | refine (boolOr_gives _ hn).bind fun _ h => Gives.pure ⟨h, fun q hq hne => ?_⟩
    rcases hq with rfl | rfl | rfl | rfl
    all_goals first | exact ⟨id, id⟩ | exact absurd rfl hne

theorem constructorType_sets (d : ConstructorDecl) : constructorType.Sets d.parts ⟨.none, [], [], none, []⟩ := by
  refine .of_keys rfl (by decide) (by decide) (by simp [ConstructorDecl.parts, KeyedPart.text])
    fun p hp n v hn _ => ?_
  simp only [ConstructorDecl.parts, List.mem_cons, List.not_mem_nil, or_false] at hp ⊢
  rcases hp with rfl | rfl | rfl | rfl
  case inr.inr.inl =>
    obtain ⟨args, hargs, hn⟩ := hn
    refine (Gives.text? _ hn).bind fun _ h => Gives.pure ⟨h.trans hargs.symm, fun q hq hne => ?_⟩
    rcases hq with rfl | rfl | rfl | rfl
    all_goals first | exact ⟨id, id⟩ | exact absurd rfl hne
  all_goals
    refine (textOr_gives _ hn).bind fun _ h => Gives.pure ⟨h, fun q hq hne => ?_⟩
    rcases hq with rfl | rfl | rfl | rfl
    all_goals first | exact ⟨id, id⟩ | exact absurd rfl hne

theorem methodType_sets (d : MethodDecl) : methodType.Sets d.parts ⟨.none, [], false, [], [], [], [], []⟩ := by
  refine .of_keys rfl (by decide) (by decide) (by simp [MethodDecl.parts, KeyedPart.text, KeyedPart.bool])
    fun p hp n v hn _ => ?_
  simp only [MethodDecl.parts, List.mem_cons, List.not_mem_nil, or_false] at hp ⊢
  rcases hp with rfl | rfl | rfl | rfl | rfl | rfl | rfl
  all_goals
    first
      | refine (textOr_gives _ hn).bind fun _ h => Gives.pure ⟨h, fun q hq hne => ?_⟩
      | refine (boolOr_gives _ hn).bind fun _ h => Gives.pure ⟨h, fun q hq hne => ?_⟩
    rcases hq with rfl | rfl | rfl | rfl | rfl | rfl | rfl
    all_goals first | exact ⟨id, id⟩ | exact absurd rfl hne

end DocumentReader

open DocumentReader

/-! ### What is decoded -/

theorem FieldDecl.Written.entry {d : FieldDecl} {n : Node} (h : d.Written n) :
    Gives (Decode.followed (fieldType.entry? ⟨.none, [], false, [], []⟩) n) fun o =>
      ∃ v, o = some v ∧ v.unplaced = d.unplaced := by
  refine ((fieldType_sets d).followed_entry h).mono ?_
  rintro _ ⟨v, rfl, hv⟩
  simp only [FieldDecl.parts, List.forall_mem_cons] at hv
  obtain ⟨hname, htype, hdefault, href, -⟩ := hv
  exact ⟨_, rfl, (FieldDecl.mk.injEq ..).mpr ⟨rfl, hname, href, htype, hdefault⟩⟩

theorem MethodDecl.Written.entry {d : MethodDecl} {n : Node} (h : d.Written n) :
    Gives (Decode.followed (methodType.entry? ⟨.none, [], false, [], [], [], [], []⟩) n) fun o =>
      ∃ v, o = some v ∧ v.unplaced = d.unplaced := by
  refine ((methodType_sets d).followed_entry h).mono ?_
  rintro _ ⟨v, rfl, hv⟩
  simp only [MethodDecl.parts, List.forall_mem_cons] at hv
  obtain ⟨hname, hdoc, hoverride, htypeParams, hparams, hresults, hbody, -⟩ := hv
  exact ⟨_, rfl, (MethodDecl.mk.injEq ..).mpr ⟨rfl, hname, hoverride, hdoc, htypeParams, hparams, hresults, hbody⟩⟩

theorem ConstructorDecl.Written.constructorOr {d : ConstructorDecl} {n : Node} (h : d.Written n) :
    Gives (constructorOr none n) fun o => ∃ v, o = some v ∧ v.unplaced = d.unplaced := by
  obtain ⟨tag, entries, place, hn, htag, -⟩ := id h
  refine Gives.followed (by simp [hn]) ?_
  have hentry := ((constructorType_sets d).entry h).mono (R := fun o => ∃ v, o = some v ∧ v.unplaced = d.unplaced) <| by
    rintro _ ⟨v, rfl, hv⟩
    simp only [ConstructorDecl.parts, List.forall_mem_cons] at hv
    obtain ⟨htypeParams, hparams, hsuper, hbody, -⟩ := hv
    exact ⟨_, rfl, (ConstructorDecl.mk.injEq ..).mpr ⟨rfl, htypeParams, hparams, hsuper, hbody⟩⟩
  subst hn
  dsimp only
  rw [if_neg htag]
  exact hentry

theorem ImportDecl.Written.import? {d : ImportDecl} {n : Node} (h : d.Written n) :
    Gives (import? n) fun o => ∃ v, o = some v ∧ v.unplaced = d.unplaced := by
  rcases h with h | ⟨hlocal, h⟩
  · obtain ⟨tag, entries, place, hn, -⟩ := id h
    refine Gives.followed (by simp [hn]) ?_
    have hentry := ((importType_sets d).entry h).mono (R := fun o => ∃ v, o = some v ∧ v.unplaced = d.unplaced) <| by
      rintro _ ⟨v, rfl, hv⟩
      simp only [ImportDecl.parts, List.forall_mem_cons] at hv
      obtain ⟨hlocal, hpath, -⟩ := hv
      exact ⟨_, rfl, (ImportDecl.mk.injEq ..).mpr ⟨rfl, hlocal, hpath⟩⟩
    subst hn
    exact hentry
  · have htag := h.tag_ne_null
    obtain ⟨tag, place, v, rfl, -⟩ := h
    refine Gives.followed (by simp) ?_
    dsimp only
    rw [if_neg (show tag ≠ nullTag from htag)]
    exact Gives.pure ⟨_, rfl, (ImportDecl.mk.injEq ..).mpr ⟨rfl, hlocal.symm, rfl⟩⟩

namespace DocumentReader

theorem meaningType_sets (d : MeaningDecl) : meaningType.Sets d.parts ⟨.none, [], [], .none, [], [], [], []⟩ := by
  refine .of_keys rfl (by decide) (by decide) (by simp [MeaningDecl.parts, KeyedPart.text, KeyedPart.items])
    fun p hp n v hn hfresh => ?_
  simp only [MeaningDecl.parts, List.mem_cons, List.not_mem_nil, or_false] at hp ⊢
  rcases hp with rfl | rfl | rfl | rfl | rfl | rfl
  case inr.inr.inr.inr.inl =>
    obtain ⟨c, hconstructors, hn⟩ := hn
    have hnone : v.constructors.head? = none := by rw [hfresh]; rfl
    have hset : Gives (constructorOr v.constructors.head? n) fun o =>
        o.toList.map ConstructorDecl.unplaced = d.constructors.map ConstructorDecl.unplaced := by
      rw [hnone, hconstructors]
      refine hn.constructorOr.mono ?_
      rintro _ ⟨c', rfl, hc'⟩
      exact congrArg (fun c => [c]) hc'
    refine hset.bind fun _ h => Gives.pure ⟨h, fun q hq hne => ?_⟩
    rcases hq with rfl | rfl | rfl | rfl | rfl | rfl
    all_goals first | exact ⟨id, id⟩ | exact absurd rfl hne
  all_goals
    first
      | refine (textOr_gives _ hn).bind fun _ h => Gives.pure ⟨h, fun q hq hne => ?_⟩
      | refine (items_gives _ hn fun _ _ => FieldDecl.Written.entry).bind fun _ h => Gives.pure ⟨h, fun q hq hne => ?_⟩
      | refine (items_gives _ hn fun _ _ => MethodDecl.Written.entry).bind fun _ h => Gives.pure ⟨h, fun q hq hne => ?_⟩
    rcases hq with rfl | rfl | rfl | rfl | rfl | rfl
    all_goals first | exact ⟨id, id⟩ | exact absurd rfl hne

end DocumentReader

theorem MeaningDecl.Written.entry {d : MeaningDecl} {n : Node} (h : d.Written n) :
    Gives (Decode.followed (meaningType.entry? ⟨.none, [], [], .none, [], [], [], []⟩) n) fun o =>
      ∃ v, o = some v ∧ v.unplaced = d.unplaced := by
  refine ((meaningType_sets d).followed_entry h).mono ?_
  rintro _ ⟨v, rfl, hv⟩
  simp only [MeaningDecl.parts, List.forall_mem_cons] at hv
  obtain ⟨hname, hparent, hdoc, hfields, hconstructors, hmethods, -⟩ := hv
  exact ⟨_, rfl, (MeaningDecl.mk.injEq ..).mpr ⟨rfl, hname, hparent, rfl, hdoc, hfields, hconstructors, hmethods⟩⟩

namespace DocumentReader

theorem fileType_sets (f : DeclFile) : fileType.Sets f.parts { name := f.name } := by
  refine .of_nodup (show ([] :: fileType.keys).Nodup by decide) (fun p hp n hn => ?_)
    (fun p hp => (show ∀ k ∈ [] :: fileType.keys, k ≠ Text.ofString "<<" by decide) _ (List.mem_map_of_mem hp))
    (by simp [DeclFile.parts, KeyedPart.text, KeyedPart.items]) fun p hp n v hn _ => ?_
  · rcases List.mem_cons.1 hp with rfl | hp
    · exact hn.elim
    · exact List.mem_map_of_mem hp
  · simp only [DeclFile.parts, List.mem_cons, List.not_mem_nil, or_false] at hp ⊢
    rcases hp with rfl | rfl | rfl | rfl | rfl
    · exact hn.elim
    all_goals
      first
        | refine (textOr_gives _ hn).bind fun _ h => Gives.pure ⟨h, fun q hq hne => ?_⟩
        | refine (items_gives _ hn fun _ _ => MeaningDecl.Written.entry).bind fun _ h =>
            Gives.pure ⟨h, fun q hq hne => ?_⟩
        | refine (items_gives _ hn fun _ _ => ImportDecl.Written.import?).bind fun _ h =>
            Gives.pure ⟨h, fun q hq hne => ?_⟩
      rcases hq with rfl | rfl | rfl | rfl | rfl
      all_goals first | exact ⟨id, id⟩ | exact absurd rfl hne

end DocumentReader

/-- A document that holds the texts of a file is decoded to the file, but for places. -/
theorem DeclFile.Written.exists_decode {f : DeclFile} {doc : Document} (h : f.Written doc.root) :
    ∃ g s, decode f.name doc {} = .ok (g, s) ∧ s.notes = [] ∧ g.unplaced = f.unplaced := by
  obtain ⟨g, s, hrun, -, hnotes, hg⟩ :=
    (Gives.visit.bind fun _ _ => (fileType_sets f).record h) doc {} ⟨rfl, rfl, rfl⟩
  simp only [DeclFile.parts, List.forall_mem_cons] at hg
  obtain ⟨hname, hpackage, harena, himports, hmeanings, -⟩ := hg
  exact ⟨g, s, hrun, hnotes, (DeclFile.mk.injEq ..).mpr ⟨hname, hpackage, harena, himports, hmeanings⟩⟩

/-! ### Documents exist -/

theorem ImportDecl.exists_written (d : ImportDecl) : ∃ n, d.Written n := by
  obtain ⟨n, hn⟩ : ∃ n : Node, n.Has d.parts ⟨.none, [], []⟩ := by
    refine Node.exists_has (show importType.keys.Nodup by decide) fun p hp => ?_
    simp only [ImportDecl.parts, List.mem_cons, List.not_mem_nil, or_false] at hp
    rcases hp with rfl | rfl
    all_goals exact .inr (Node.exists_hasText _)
  exact ⟨n, .inl hn⟩

theorem FieldDecl.exists_written (d : FieldDecl) : ∃ n, d.Written n := by
  refine Node.exists_has (show fieldType.keys.Nodup by decide) fun p hp => ?_
  simp only [FieldDecl.parts, List.mem_cons, List.not_mem_nil, or_false] at hp
  rcases hp with rfl | rfl | rfl | rfl
  all_goals first | exact .inr (Node.exists_hasText _) | exact .inr (Node.exists_hasBool _)

theorem ConstructorDecl.exists_written (d : ConstructorDecl) : ∃ n, d.Written n := by
  refine Node.exists_has (show constructorType.keys.Nodup by decide) fun p hp => ?_
  simp only [ConstructorDecl.parts, List.mem_cons, List.not_mem_nil, or_false] at hp
  rcases hp with rfl | rfl | rfl | rfl
  case inr.inr.inl =>
    cases d.superArgs with
    | none => exact .inl rfl
    | some args =>
      obtain ⟨n, hn⟩ := Node.exists_hasText args
      exact .inr ⟨n, args, rfl, hn⟩
  all_goals exact .inr (Node.exists_hasText _)

theorem MethodDecl.exists_written (d : MethodDecl) : ∃ n, d.Written n := by
  refine Node.exists_has (show methodType.keys.Nodup by decide) fun p hp => ?_
  simp only [MethodDecl.parts, List.mem_cons, List.not_mem_nil, or_false] at hp
  rcases hp with rfl | rfl | rfl | rfl | rfl | rfl | rfl
  all_goals first | exact .inr (Node.exists_hasText _) | exact .inr (Node.exists_hasBool _)

theorem MeaningDecl.exists_written {d : MeaningDecl} (h : d.constructors.length ≤ 1) : ∃ n, d.Written n := by
  refine Node.exists_has (show meaningType.keys.Nodup by decide) fun p hp => ?_
  simp only [MeaningDecl.parts, List.mem_cons, List.not_mem_nil, or_false] at hp
  rcases hp with rfl | rfl | rfl | rfl | rfl | rfl
  case inr.inr.inr.inr.inl =>
    match d.constructors, h with
    | [], _ => exact .inl rfl
    | [c], _ =>
      obtain ⟨n, hn⟩ := c.exists_written
      exact .inr ⟨n, c, rfl, hn⟩
  all_goals first
    | exact .inr (Node.exists_hasText _)
    | exact .inr (Node.exists_hasItems fun _ _ => FieldDecl.exists_written _)
    | exact .inr (Node.exists_hasItems fun _ _ => MethodDecl.exists_written _)

/-- Every file can be written as a document that has at most one constructor in each meaning. -/
theorem DeclFile.exists_written {f : DeclFile} (h : ∀ d ∈ f.meanings, d.constructors.length ≤ 1) :
    ∃ n, f.Written n := by
  refine Node.exists_has (show ([] :: fileType.keys).Nodup by decide) fun p hp => ?_
  simp only [DeclFile.parts, List.mem_cons, List.not_mem_nil, or_false] at hp
  rcases hp with rfl | rfl | rfl | rfl | rfl
  · exact .inl rfl
  all_goals first
    | exact .inr (Node.exists_hasText _)
    | exact .inr (Node.exists_hasItems fun _ _ => ImportDecl.exists_written _)
    | exact .inr (Node.exists_hasItems fun d hd => MeaningDecl.exists_written (h d hd))

end MeaningForest
