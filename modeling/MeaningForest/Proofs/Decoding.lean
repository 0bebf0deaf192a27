import MeaningForest.Yaml.Merge
import Mathlib.Data.List.Forall2
import Mathlib.Data.List.Nodup

/-!
# Records read from documents

A mapping has the parts of a record if each of its keys is that of one part, none stands twice, and the values are what
the parts want (`Node.Has`).  Whatever the order of the keys, a record that is decoded from it is right at every part,
and nothing is noted (`RecordType.Sets.entry`).  A part may be left out where the empty record is right already.

`Decode.Gives` says of a step of decoding what it gives outside aliases and merged mappings.
-/

namespace MeaningForest.Yaml

variable {α β σ : Type}

/-! ### What nodes hold -/

namespace Node

/-- A scalar with a text that is not null.  Its tag does not matter as long as the text has the form of it. -/
def HasText (t : Text) (n : Node) : Prop :=
  ∃ tag place v, n = .scalar tag t place ∧ tag ≠ binaryTag ∧ ScalarValue.ofTagged tag t = .ok v ∧ v ≠ .null

def HasBool (b : Bool) (n : Node) : Prop :=
  ∃ tag text place, n = .scalar tag text place ∧ tag ≠ binaryTag ∧ ScalarValue.ofTagged tag text = .ok (.bool b)

def HasItems (holds : α → Node → Prop) (l : List α) (n : Node) : Prop :=
  ∃ tag items place, n = .sequence tag items place ∧ List.Forall₂ holds l items

/-- A part of a record: its key in a mapping, what a node has to hold there, when a record is right there, and what has
to be true of a record in which the part is not yet set. -/
structure KeyedPart (σ : Type) where
  key : Text
  holds : Node → Prop
  right : σ → Prop
  fresh : σ → Prop

/-- A text of the record `d`. -/
def KeyedPart.text (key : Text) (get : σ → Text) (d : σ) : KeyedPart σ :=
  ⟨key, HasText (get d), fun v => get v = get d, fun _ => True⟩

def KeyedPart.bool (key : Text) (get : σ → Bool) (d : σ) : KeyedPart σ :=
  ⟨key, HasBool (get d), fun v => get v = get d, fun _ => True⟩

/-- A list of the record `d`, whose elements have to be the same but for what `forget` leaves out. -/
def KeyedPart.items (key : Text) (holds : α → Node → Prop) (forget : α → α) (get : σ → List α) (d : σ) : KeyedPart σ :=
  ⟨key, HasItems holds (get d), fun v => (get v).map forget = (get d).map forget, fun _ => True⟩

/-- A mapping with the parts of a record in any order; a part may be left out if the record `start` is right there. -/
def Has (parts : List (KeyedPart σ)) (start : σ) (n : Node) : Prop :=
  ∃ tag entries place, n = .mapping tag entries place ∧ tag ≠ nullTag ∧ (entries.map (·.1.text)).Nodup ∧
    (∀ e ∈ entries, ∃ p ∈ parts, e.1.HasText p.key ∧ p.holds e.2) ∧
    ∀ p ∈ parts, p.right start ∨ p.key ∈ entries.map (·.1.text)

theorem HasText.text_eq {t : Text} {n : Node} (h : n.HasText t) : n.text = t := by
  obtain ⟨tag, place, v, rfl, -⟩ := h
  rfl

end Node

/-! ### Nodes that hold what is wanted -/

namespace Node

theorem exists_hasText (t : Text) : ∃ n : Node, n.HasText t := by
  have htag : [boolTag, intTag, floatTag, nullTag, timestampTag].contains strTag = false := by decide
  refine ⟨.scalar strTag t .none, strTag, .none, .str t, rfl, by decide, ?_, by simp⟩
  rw [ScalarValue.ofTagged, htag]
  rfl

theorem exists_hasBool (b : Bool) : ∃ n : Node, n.HasBool b := by
  cases b with
  | true => exact ⟨_, boolTag, "true", .none, rfl, by decide, by decide⟩
  | false => exact ⟨_, boolTag, "false", .none, rfl, by decide, by decide⟩

theorem exists_hasItems {holds : α → Node → Prop} {l : List α} (h : ∀ a ∈ l, ∃ n, holds a n) :
    ∃ n : Node, n.HasItems holds l := by
  suffices hitems : ∃ items, List.Forall₂ holds l items by
    obtain ⟨items, hitems⟩ := hitems
    exact ⟨_, seqTag, items, .none, rfl, hitems⟩
  induction l with
  | nil => exact ⟨[], .nil⟩
  | cons a l ih =>
    obtain ⟨n, hn⟩ := h a (List.mem_cons_self ..)
    obtain ⟨items, hitems⟩ := ih fun b hb => h b (List.mem_cons_of_mem _ hb)
    exact ⟨n :: items, .cons hn hitems⟩

theorem exists_has {parts : List (KeyedPart σ)} {start : σ} (hnodup : (parts.map (·.key)).Nodup)
    (h : ∀ p ∈ parts, p.right start ∨ ∃ n, p.holds n) : ∃ n : Node, n.Has parts start := by
  suffices hentries : ∃ entries : List (Node × Node), (entries.map (·.1.text)).Sublist (parts.map (·.key)) ∧
      (∀ e ∈ entries, ∃ p ∈ parts, e.1.HasText p.key ∧ p.holds e.2) ∧
      ∀ p ∈ parts, p.right start ∨ p.key ∈ entries.map (·.1.text) by
    obtain ⟨entries, hkeys, hentries⟩ := hentries
    exact ⟨_, mapTag, entries, .none, rfl, by decide, hkeys.nodup hnodup, hentries⟩
  clear hnodup
  induction parts with
  | nil => exact ⟨[], List.Sublist.refl _, by simp, by simp⟩
  | cons p parts ih =>
    obtain ⟨entries, hkeys, hentries, hparts⟩ := ih fun q hq => h q (List.mem_cons_of_mem _ hq)
    have hkept : ∀ e ∈ entries, ∃ q ∈ p :: parts, e.1.HasText q.key ∧ q.holds e.2 := fun e he => by
      obtain ⟨q, hq, hqe⟩ := hentries e he
      exact ⟨q, List.mem_cons_of_mem _ hq, hqe⟩
    rcases h p (List.mem_cons_self ..) with hright | ⟨n, hn⟩
    · refine ⟨entries, hkeys.cons _, hkept, fun q hq => ?_⟩
      rcases List.mem_cons.1 hq with rfl | hq
      · exact .inl hright
      · exact hparts q hq
    · obtain ⟨k, hk⟩ := exists_hasText p.key
      refine ⟨(k, n) :: entries, ?_, fun e he => ?_, fun q hq => ?_⟩
      · rw [List.map_cons, List.map_cons, hk.text_eq]
        exact hkeys.cons_cons _
      · rcases List.mem_cons.1 he with rfl | he
        · exact ⟨p, List.mem_cons_self .., hk, hn⟩
        · exact hkept e he
      · rcases List.mem_cons.1 hq with rfl | hq
        · exact .inr (hk.text_eq ▸ List.mem_cons_self ..)
        · exact (hparts q hq).imp_right (List.mem_cons_of_mem _)

end Node

/-- A text with a tag that stands for a text stands for itself. -/
theorem ScalarValue.eq_of_ofTagged {tag t b : Text} (h : ScalarValue.ofTagged tag t = .ok (.str b)) : b = t := by
  rw [ofTagged] at h
  split at h
  · rename_i htag
    dsimp only at h
    split at h
    · rename_i hvalue
      rw [Except.ok.inj h] at hvalue
      rw [← hvalue] at htag
      exact absurd htag (by rw [ScalarValue.tag]; decide)
    · split at h
      · split at h <;> cases h
      · cases h
  · cases h
    rfl

theorem Node.HasText.tag_ne_null {t : Text} {n : Node} (h : n.HasText t) : n.tag ≠ nullTag := by
  obtain ⟨tag, place, v, rfl, -, hv, hnull⟩ := h
  rintro rfl
  rw [ScalarValue.ofTagged, if_pos (by decide)] at hv
  dsimp only at hv
  split at hv
  · rename_i htag
    rw [Except.ok.inj hv] at htag
    cases v with
    | null => exact hnull rfl
    | _ => exact absurd htag (by rw [ScalarValue.tag]; decide)
  · split at hv
    · have hfloat : nullTag ≠ floatTag := by decide
      rw [if_neg fun h => hfloat h.1] at hv
      cases hv
    · cases hv

/-! ### Steps of decoding -/

/-- Nothing is decoded through an alias, and no keys are taken by a mapping that others are merged into. -/
structure DecodeState.Plain (s : DecodeState) : Prop where
  followed : s.followed = []
  aliased : s.aliased = 0
  taken : s.taken = none

namespace Decode

/-- In a plain state a step gives a result with `Q`; it notes nothing, and the state stays plain. -/
def Gives (x : Decode α) (Q : α → Prop) : Prop :=
  ∀ doc s, s.Plain → ∃ a s', x doc s = .ok (a, s') ∧ s'.Plain ∧ s'.notes = s.notes ∧ Q a

namespace Gives

variable {Q : α → Prop} {Q' : β → Prop}

theorem pure {a : α} (h : Q a) : Gives (pure a) Q := fun _ s hs => ⟨a, s, rfl, hs, rfl, h⟩

theorem bind {x : Decode α} {f : α → Decode β} (hx : Gives x Q) (hf : ∀ a, Q a → Gives (f a) Q') :
    Gives (x >>= f) Q' := by
  intro doc s hs
  obtain ⟨a, s₁, hrun, hs₁, hnotes, ha⟩ := hx doc s hs
  obtain ⟨b, s₂, hrun', hs₂, hnotes', hb⟩ := hf a ha doc s₁ hs₁
  refine ⟨b, s₂, ?_, hs₂, hnotes'.trans hnotes, hb⟩
  show (x doc s >>= fun p => f p.1 doc p.2) = _
  rw [hrun]
  exact hrun'

theorem mono {x : Decode α} {R : α → Prop} (hx : Gives x Q) (h : ∀ a, Q a → R a) : Gives x R := by
  intro doc s hs
  obtain ⟨a, s', hrun, hs', hnotes, ha⟩ := hx doc s hs
  exact ⟨a, s', hrun, hs', hnotes, h a ha⟩

theorem visit : Gives visit fun _ => True := by
  intro doc s hs
  obtain ⟨s', hs'⟩ : ∃ s' : DecodeState, s' = { s with
      visits := s.visits + 1, aliased := if s.followed.isEmpty then s.aliased else s.aliased + 1 } := ⟨_, rfl⟩
  have haliased : s'.aliased = 0 := by rw [hs', hs.followed, ← hs.aliased]; rfl
  have hquiet : s'.isExcessive = false := by
    rw [DecodeState.isExcessive, haliased]
    rfl
  have hrun :
      Decode.visit doc s = (if s'.isExcessive then throw .tooManyAliases else Pure.pure () : Decode Unit) doc s' := by
    rw [hs']
    rfl
  refine ⟨(), s', ?_, ⟨hs' ▸ hs.followed, haliased, hs' ▸ hs.taken⟩, by rw [hs'], trivial⟩
  rw [hrun, hquiet]
  rfl

/-- The keys that are taken: there are none. -/
theorem getTaken {f : DecodeState → Decode α} (hf : ∀ s, s.Plain → Gives (f s) Q) : Gives (get >>= f) Q :=
  fun doc s hs => hf s hs doc s hs

theorem free : Gives (modify fun s => { s with taken := none }) fun _ => True :=
  fun _ _ hs => ⟨(), _, rfl, ⟨hs.followed, hs.aliased, rfl⟩, rfl, trivial⟩

theorem room : Gives room fun n => n ≠ 0 :=
  fun _ s hs => ⟨_, s, rfl, hs, rfl, Nat.mul_ne_zero (Nat.succ_ne_zero _) (Nat.succ_ne_zero _)⟩

theorem afresh {x : Decode α} (hx : Gives x Q) : Gives (afresh x) Q := by
  intro doc s hs
  obtain ⟨a, s', hrun, -, hnotes, ha⟩ := (visit.bind fun _ _ => hx) doc { notes := s.notes } ⟨rfl, rfl, rfl⟩
  refine ⟨a, s, ?_, hs, rfl, ha⟩
  rw [Decode.afresh, hrun]
  exact congrArg (fun notes => Except.ok (a, { s with notes })) hnotes

theorem followed {decode : Node → Decode α} {n : Node} (hn : ∀ name k place, n ≠ .reference name k place)
    (h : Gives (decode n) Q) : Gives (followed decode n) Q := by
  cases n with
  | reference name k place => exact absurd rfl (hn name k place)
  | scalar tag text place => exact visit.bind fun _ _ => h
  | sequence tag items place => exact visit.bind fun _ _ => h
  | mapping tag entries place => exact visit.bind fun _ _ => h

/-! ### Scalars and lists -/

theorem scalarValue {tag t : Text} {v : ScalarValue} (hbinary : tag ≠ binaryTag)
    (h : ScalarValue.ofTagged tag t = .ok v) : Gives (scalarValue tag t) (· = v) := by
  have hrun : Decode.scalarValue tag t = Pure.pure v := by
    rw [Decode.scalarValue, h]
    exact if_pos (by simpa using hbinary)
  rw [hrun]
  exact pure rfl

theorem text? {t : Text} {n : Node} (nullable : Text) (h : n.HasText t) : Gives (text? nullable n) (· = some t) := by
  obtain ⟨tag, place, v, rfl, hbinary, hv, hnull⟩ := h
  refine followed (by simp) ((scalarValue hbinary hv).bind ?_)
  rintro v rfl
  cases v with
  | null => exact absurd rfl hnull
  | str b => exact pure (congrArg some (ScalarValue.eq_of_ofTagged hv))
  | bool b => exact pure rfl
  | int i => exact pure rfl
  | float x => exact pure rfl
  | timestamp x => exact pure rfl

theorem bool? {b : Bool} {n : Node} (h : n.HasBool b) : Gives (bool? n) (· = some b) := by
  obtain ⟨tag, text, place, rfl, hbinary, hv⟩ := h
  refine followed (by simp) ((scalarValue hbinary hv).bind ?_)
  rintro _ rfl
  exact pure rfl

/-- Items that each give a value give the list of these. -/
theorem list {holds : α → Node → Prop} {R : α → β → Prop} {item : Node → Decode (Option β)} {l : List α} {n : Node}
    (type : Text) (hn : n.HasItems holds l)
    (hitem : ∀ a ∈ l, ∀ m, holds a m → Gives (item m) fun o => ∃ b, o = some b ∧ R a b) :
    Gives (list type item n) (List.Forall₂ R l) := by
  obtain ⟨tag, items, place, rfl, hitems⟩ := hn
  have hvalues : Gives (items.mapM item) fun os => ∃ bs, os = bs.map some ∧ List.Forall₂ R l bs := by
    induction hitems with
    | nil => exact pure ⟨[], rfl, .nil⟩
    | @cons a m l items hm _ ih =>
      rw [List.mapM_cons]
      refine (hitem a (List.mem_cons_self ..) m hm).bind ?_
      rintro _ ⟨b, rfl, hb⟩
      refine (ih fun a ha => hitem a (List.mem_cons_of_mem _ ha)).bind ?_
      rintro _ ⟨bs, rfl, hbs⟩
      exact pure ⟨b :: bs, rfl, .cons hb hbs⟩
  refine followed (by simp) (hvalues.bind ?_)
  rintro _ ⟨bs, rfl, hbs⟩
  rw [List.filterMap_map, Function.id_comp, List.filterMap_some]
  exact pure hbs

/-! ### Records -/

theorem checkKeys {entries : List (Node × Node)} (h : (entries.map (·.1.text)).Nodup) :
    Gives (checkKeys entries) (· = true) := by
  have hgo : ∀ (same : Node → Node → Bool) (ks : List Node), (∀ a b, same a b → a.text = b.text) →
      (ks.map (·.text)).Nodup → Gives (checkKeys.go same ks) (· = true) := by
    intro same ks hsame hnodup
    induction ks with
    | nil => exact pure rfl
    | cons k later ih =>
      obtain ⟨hk, hlater⟩ := List.nodup_cons.1 hnodup
      have hagain : later.filter (same k) = [] := by
        refine List.filter_eq_nil_iff.2 fun j hj hsk => hk ?_
        exact List.mem_map.2 ⟨j, hj, (hsame k j hsk).symm⟩
      rw [checkKeys.go, hagain]
      refine (pure (Q := fun _ => True) trivial).bind fun _ _ => (ih hlater).bind ?_
      rintro _ rfl
      exact pure rfl
  refine hgo _ _ (fun a b hab => ?_) (by rwa [List.map_map])
  simp only [Bool.and_eq_true, beq_iff_eq] at hab
  exact hab.1

end Gives

namespace RecordType

open Node

/-- Setting a key makes a record right at the part of this key, and does not touch the others. -/
structure Sets (r : RecordType σ) (parts : List (KeyedPart σ)) (start : σ) : Prop where
  known : ∀ p ∈ parts, ∀ n, p.holds n → p.key ∈ r.keys
  unmerged : ∀ p ∈ parts, p.key ≠ Text.ofString "<<"
  fresh : ∀ p ∈ parts, p.fresh start
  set : ∀ p ∈ parts, ∀ n v, p.holds n → p.fresh v → Gives (r.set p.key n v) fun v' => ∀ q ∈ parts,
    (q.key = p.key ∨ q.right v → q.right v') ∧ (q.key ≠ p.key → q.fresh v → q.fresh v')

variable {r : RecordType σ} {parts : List (KeyedPart σ)} {start : σ}

namespace Sets

/-- No two parts have one key, so a key leaves the parts of all others alone. -/
theorem of_nodup (hnodup : (parts.map (·.key)).Nodup) (hknown : ∀ p ∈ parts, ∀ n, p.holds n → p.key ∈ r.keys)
    (hunmerged : ∀ p ∈ parts, p.key ≠ Text.ofString "<<") (hfresh : ∀ p ∈ parts, p.fresh start)
    (hset : ∀ p ∈ parts, ∀ n v, p.holds n → p.fresh v → Gives (r.set p.key n v) fun v' =>
      p.right v' ∧ ∀ q ∈ parts, q.key ≠ p.key → (q.right v → q.right v') ∧ (q.fresh v → q.fresh v')) :
    r.Sets parts start := by
  refine ⟨hknown, hunmerged, hfresh, fun p hp n v hn hv => (hset p hp n v hn hv).mono ?_⟩
  rintro v' ⟨hright, hothers⟩ q hq
  by_cases hkey : q.key = p.key
  · obtain rfl := List.inj_on_of_nodup_map hnodup hq hp hkey
    exact ⟨fun _ => hright, fun hne => absurd rfl hne⟩
  · obtain ⟨hkept, hfresh'⟩ := hothers q hq hkey
    exact ⟨fun h => hkept (h.resolve_left hkey), fun _ => hfresh'⟩

theorem of_keys (hkeys : parts.map (·.key) = r.keys) (hnodup : r.keys.Nodup)
    (hunmerged : ∀ k ∈ r.keys, k ≠ Text.ofString "<<") (hfresh : ∀ p ∈ parts, p.fresh start)
    (hset : ∀ p ∈ parts, ∀ n v, p.holds n → p.fresh v → Gives (r.set p.key n v) fun v' =>
      p.right v' ∧ ∀ q ∈ parts, q.key ≠ p.key → (q.right v → q.right v') ∧ (q.fresh v → q.fresh v')) :
    r.Sets parts start := by
  have hmem : ∀ p ∈ parts, p.key ∈ r.keys := fun p hp => hkeys ▸ List.mem_map_of_mem hp
  exact of_nodup (hkeys ▸ hnodup) (fun p hp _ _ => hmem p hp) (fun p hp => hunmerged _ (hmem p hp)) hfresh hset

theorem takeEntry (hr : r.Sets parts start) (name : Text) {done : List Text} {v : σ} {e : Node × Node} {p : KeyedPart σ}
    (hp : p ∈ parts) (hkey : e.1.HasText p.key) (hvalue : p.holds e.2) (hdone : p.key ∉ done) (hv : p.fresh v) :
    Gives (r.takeEntry name (none, done, v) e) fun acc => acc.1 = none ∧ acc.2.1 = p.key :: done ∧ ∀ q ∈ parts,
      (q.key = p.key ∨ q.right v → q.right acc.2.2) ∧ (q.key ≠ p.key → q.fresh v → q.fresh acc.2.2) := by
  have hknown : r.keys.contains p.key := List.contains_iff_mem.2 (hr.known p hp e.2 hvalue)
  refine (Gives.text? _ hkey).bind ?_
  rintro _ rfl
  simp only [takeKey, Bool.not_true, Bool.false_eq_true, hknown, List.contains_iff_mem, hdone, ↓reduceIte]
  exact (hr.set p hp e.2 v hvalue hv).bind fun v' hv' => Gives.pure ⟨rfl, rfl, hv'⟩

/-- Entries in any order: the record is right at every part, once the parts that are not right have been met. -/
theorem takeEntries (hr : r.Sets parts start) (name : Text) (entries : List (Node × Node)) (done : List Text) (v : σ)
    (hnodup : (entries.map (·.1.text)).Nodup)
    (hentries : ∀ e ∈ entries, e.1.text ∉ done ∧ ∃ p ∈ parts, e.1.HasText p.key ∧ p.holds e.2)
    (hparts : ∀ p ∈ parts, p.right v ∨ p.key ∈ entries.map (·.1.text))
    (hfresh : ∀ p ∈ parts, p.key ∉ done → p.fresh v) :
    Gives (entries.foldlM (r.takeEntry name) (none, done, v)) fun acc =>
      acc.1 = none ∧ ∀ p ∈ parts, p.right acc.2.2 := by
  induction entries generalizing done v with
  | nil =>
    refine Gives.pure ⟨rfl, fun p hp => ?_⟩
    simpa using hparts p hp
  | cons e entries ih =>
    obtain ⟨hdone, p, hp, hkey, hvalue⟩ := hentries e (List.mem_cons_self ..)
    rw [List.map_cons, List.nodup_cons] at hnodup
    obtain ⟨hlast, hnodup'⟩ := hnodup
    rw [hkey.text_eq] at hdone hlast
    rw [List.foldlM_cons]
    refine (hr.takeEntry name hp hkey hvalue hdone (hfresh p hp hdone)).bind ?_
    rintro ⟨_, _, v'⟩ ⟨rfl, rfl, hv'⟩
    refine ih (p.key :: done) v' hnodup' (fun e' he' => ?_) (fun q hq => ?_) fun q hq hq' => ?_
    · obtain ⟨hdone', hpart⟩ := hentries e' (List.mem_cons_of_mem _ he')
      refine ⟨fun hmem => ?_, hpart⟩
      rcases List.mem_cons.1 hmem with heq | hmem
      · exact hlast (heq ▸ List.mem_map_of_mem he')
      · exact hdone' hmem
    · rcases hparts q hq with hright | hmem
      · exact .inl ((hv' q hq).1 (.inr hright))
      · rcases List.mem_cons.1 hmem with heq | hmem
        · exact .inl ((hv' q hq).1 (.inl (heq.trans hkey.text_eq)))
        · exact .inr hmem
    · rw [List.mem_cons, not_or] at hq'
      exact (hv' q hq).2 hq'.1 (hfresh q hq hq'.2)

theorem fill (hr : r.Sets parts start) {fuel : Nat} (hfuel : fuel ≠ 0) (name : Text) (reenters : Bool)
    {entries : List (Node × Node)} (hnodup : (entries.map (·.1.text)).Nodup)
    (hentries : ∀ e ∈ entries, ∃ p ∈ parts, e.1.HasText p.key ∧ p.holds e.2)
    (hparts : ∀ p ∈ parts, p.right start ∨ p.key ∈ entries.map (·.1.text)) :
    Gives (r.fill fuel name reenters entries start) fun v => ∀ p ∈ parts, p.right v := by
  obtain ⟨fuel, rfl⟩ := Nat.exists_eq_succ_of_ne_zero hfuel
  have hown : ∀ e ∈ entries, isMergeKey e.1 = false := by
    intro e he
    obtain ⟨p, hp, hkey, -⟩ := hentries e he
    obtain ⟨tag, place, v, hscalar, -⟩ := hkey
    rw [hscalar]
    simp [isMergeKey, hr.unmerged p hp]
  have hsplit : splitMerge entries = (entries, none) := by
    have hfilter : entries.filter (fun e => isMergeKey e.1) = [] := by
      refine List.filter_eq_nil_iff.2 fun e he => ?_
      simp [hown e he]
    have hall : entries.filter (fun e => !isMergeKey e.1) = entries := by
      refine List.filter_eq_self.2 fun e he => ?_
      simp [hown e he]
    rw [splitMerge, hfilter, hall]
    rfl
  rw [RecordType.fill]
  refine (Gives.checkKeys hnodup).bind ?_
  rintro _ rfl
  rw [hsplit]
  refine Gives.getTaken fun s hs => Gives.free.bind fun _ _ => ?_
  rw [hs.taken]
  refine (hr.takeEntries name entries [] start hnodup (fun e he => ⟨List.not_mem_nil, hentries e he⟩) hparts
    fun p hp _ => hr.fresh p hp).bind ?_
  rintro ⟨_, _, v⟩ ⟨rfl, hv⟩
  exact Gives.free.bind fun _ _ => Gives.pure hv

/-- A mapping with the parts of a record gives a record that is right at each of them. -/
theorem record (hr : r.Sets parts start) {n : Node} (hn : n.Has parts start) :
    Gives (r.record start n) fun v => ∀ p ∈ parts, p.right v := by
  obtain ⟨tag, entries, place, rfl, -, hnodup, hentries, hparts⟩ := hn
  exact Gives.followed (by simp) (Gives.room.bind fun _ hfuel => hr.fill hfuel _ _ hnodup hentries hparts)

theorem entry (hr : r.Sets parts start) {n : Node} (hn : n.Has parts start) :
    Gives (r.entry? start n) fun o => ∃ v, o = some (r.placed n v) ∧ ∀ p ∈ parts, p.right v := by
  obtain ⟨tag, entries, place, rfl, htag, hnodup, hentries, hparts⟩ := hn
  rw [RecordType.entry?, if_neg (by simpa using htag)]
  refine Gives.afresh (Gives.room.bind fun _ hfuel => (hr.fill hfuel _ _ hnodup hentries hparts).bind fun v hv => ?_)
  exact Gives.pure ⟨v, rfl, hv⟩

theorem followed_entry (hr : r.Sets parts start) {n : Node} (hn : n.Has parts start) :
    Gives (followed (r.entry? start) n) fun o => ∃ v, o = some (r.placed n v) ∧ ∀ p ∈ parts, p.right v := by
  refine Gives.followed ?_ (hr.entry hn)
  obtain ⟨tag, entries, place, rfl, -⟩ := hn
  simp

end Sets

end RecordType

end Decode

end MeaningForest.Yaml
