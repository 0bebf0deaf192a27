import MeaningForest.Token.Basic
import Mathlib.Computability.Language

/-!
# The grammar of declaration files

The grammar of declaration files as languages of tokens.  A fragment of host code is any balanced sequence of tokens
without a stop token outside brackets.  What may stand as the type and as the default of a field is a parameter: a
condition on a fragment and the token that ends it.

A sequence of tokens has at most one fragment at its beginning that a stop token ends (`fragmentFrom_unique`).
-/

/-- A formal language; in the namespace of the project the plain word is the language of messages. -/
abbrev FormalLanguage (α : Type) : Type := Language α

namespace MeaningForest.Grammar

open Computability

/-! ### Tokens and fragments -/

/-- One token of a kind. -/
def one (k : TokenKind) : FormalLanguage Token := {w | ∃ t : Token, t.kind = k ∧ w = [t]}

def optional (L : FormalLanguage Token) : FormalLanguage Token := 1 + L

/-- What a token adds to the number of open brackets; all kinds of brackets count alike. -/
def weight (t : Token) : Int := if t.kind.isOpening then 1 else if t.kind.isClosing then -1 else 0

/-- The number of brackets that are open after some tokens. -/
def depth : List Token → Int
  | [] => 0
  | t :: w => weight t + depth w

/-- Tokens after `d` open brackets that close all of them and never more than are open, without a token of one of the
kinds `stops` outside brackets. -/
def fragmentFrom (stops : List TokenKind) (d : Int) : FormalLanguage Token :=
  {w | (∀ t ∈ w, t.kind ≠ .eof) ∧ (∀ u, u <+: w → 0 ≤ d + depth u) ∧ d + depth w = 0 ∧
    ∀ u t, u ++ [t] <+: w → d + depth u = 0 → t.kind ∉ stops}

/-- A fragment of host code. -/
def fragment (stops : List TokenKind) : FormalLanguage Token := fragmentFrom stops 0

/-- The source text from the first token of a fragment up to the token that ends it, white space around it removed. -/
def fragmentText (source : Text) (u : List Token) (s : Token) : Text :=
  Text.trimSpace ((source.drop (u.headD s).start).take (s.start - (u.headD s).start))

/-- The source has a text for a fragment. -/
def Written (source : Text) (u : List Token) (s : Token) : Prop := fragmentText source u s ≠ []

/-- A fragment and the token that ends it, which together satisfy a condition. -/
def ended (ok : List Token → Token → Prop) (stops : List TokenKind) (k : TokenKind) : FormalLanguage Token :=
  {w | ∃ u s, u ∈ fragment stops ∧ s.kind = k ∧ ok u s ∧ w = u ++ [s]}

/-- A fragment between brackets. -/
def group (opening closing : TokenKind) : FormalLanguage Token := one opening * fragment [closing] * one closing

/-! ### Declarations -/

/-- A fragment that does not begin with the word `super`. -/
def plainBody : FormalLanguage Token :=
  {w | w ∈ fragment [.rbrace] ∧ ∀ t u, w = t :: u → t.kind ≠ .keyword .super}

def superCall : FormalLanguage Token := one (.keyword .super) * group .lparen .rparen * optional (one .semicolon)

def constructor : FormalLanguage Token :=
  one (.keyword .constructor) * optional (group .lbracket .rbracket) * group .lparen .rparen * one .lbrace *
    (superCall * fragment [.rbrace] + plainBody) * one .rbrace

def method : FormalLanguage Token :=
  optional (one (.keyword .override)) * one (.keyword .fn) * one .ident * optional (group .lbracket .rbracket) *
    group .lparen .rparen * fragment [.lbrace] * one .lbrace * fragment [.rbrace] * one .rbrace

def spec : FormalLanguage Token := optional (one .ident + one .dot) * one .string

def importDecl : FormalLanguage Token :=
  one (.keyword .import) * spec * optional (one .semicolon) +
    one (.keyword .import) * one .lparen * (spec + one .semicolon)∗ * one .rparen

def named (w : Keyword) : FormalLanguage Token := one (.keyword w) * one .ident * optional (one .semicolon)

section Fields

variable (ok : List Token → Token → Prop)

def field : FormalLanguage Token :=
  one (.keyword .let) * optional (one (.keyword .ref)) * one .ident * one .colon *
    (ended ok [.assign, .semicolon] .semicolon +
      ended ok [.assign, .semicolon] .assign * ended ok [.semicolon] .semicolon)

def member : FormalLanguage Token := one .semicolon + field ok + constructor + method

def meaning : FormalLanguage Token :=
  one (.keyword .meaning) * one .ident * optional (one .colon * one .ident) * one .lbrace * (member ok)∗ * one .rbrace

def declaration : FormalLanguage Token := named .package + importDecl + named .arena + meaning ok + one .semicolon

/-- A declaration file: declarations and the end of the source. -/
def file : FormalLanguage Token := (declaration ok)∗ * one .eof

end Fields

/-! ### First tokens -/

variable {L M K : FormalLanguage Token} {k : TokenKind} {t : Token} {ts : List Token}

@[simp] theorem cons_mem_one_mul : t :: ts ∈ one k * K ↔ t.kind = k ∧ ts ∈ K := by
  rw [Language.mem_mul]
  constructor
  · rintro ⟨_, ⟨s, hs, rfl⟩, w, hw, h⟩
    obtain ⟨rfl, rfl⟩ := List.cons.inj h
    exact ⟨hs, hw⟩
  · rintro ⟨hk, hts⟩
    exact ⟨[t], ⟨t, hk, rfl⟩, ts, hts, rfl⟩

theorem nil_notMem_one_mul : [] ∉ one k * K := by
  rw [Language.mem_mul]
  rintro ⟨_, ⟨s, -, rfl⟩, w, -, h⟩
  cases h

theorem mem_add_mul {w : List Token} : w ∈ (L + M) * K ↔ w ∈ L * K ∨ w ∈ M * K := by
  rw [add_mul, Language.mem_add]

theorem mem_optional_mul {w : List Token} : w ∈ optional L * K ↔ w ∈ K ∨ w ∈ L * K := by
  rw [optional, add_mul, one_mul, Language.mem_add]

theorem mem_kstar_mul {w : List Token} : w ∈ L∗ * K ↔ w ∈ K ∨ w ∈ L * (L∗ * K) := by
  rw [← mul_assoc, ← Language.mem_add]
  nth_rewrite 1 [← Language.one_add_self_mul_kstar_eq_kstar L]
  rw [add_mul, one_mul]

/-! ### Fragments -/

theorem weight_opening (h : t.kind.isOpening = true) : weight t = 1 := by rw [weight, if_pos h]

theorem weight_closing (h : ¬ t.kind.isOpening = true) (h' : t.kind.isClosing = true) : weight t = -1 := by
  rw [weight, if_neg h, if_pos h']

theorem weight_other (h : ¬ t.kind.isOpening = true) (h' : ¬ t.kind.isClosing = true) : weight t = 0 := by
  rw [weight, if_neg h, if_neg h']

variable {stops : List TokenKind} {d : Int}

theorem nil_mem_fragmentFrom : [] ∈ fragmentFrom stops d ↔ d = 0 := by
  constructor
  · rintro ⟨-, -, h, -⟩
    simpa [depth] using h
  · rintro rfl
    refine ⟨by simp, ?_, rfl, ?_⟩
    · intro u hu
      rw [List.prefix_nil.1 hu]
      simp [depth]
    · intro u t hu
      simpa using List.prefix_nil.1 hu

theorem cons_mem_fragmentFrom : t :: ts ∈ fragmentFrom stops d ↔
    t.kind ≠ .eof ∧ (d = 0 → t.kind ∉ stops) ∧ 0 ≤ d ∧ ts ∈ fragmentFrom stops (d + weight t) := by
  have hdepth : ∀ u, d + depth (t :: u) = d + weight t + depth u := by
    intro u
    rw [depth]
    omega
  constructor
  · rintro ⟨heof, hnonneg, hzero, hstop⟩
    refine ⟨heof t (by simp), fun hd => ?_, by simpa [depth] using hnonneg [] List.nil_prefix, ?_⟩
    · exact hstop [] t (by simp) (by simp [depth, hd])
    · refine ⟨fun s hs => heof s (by simp [hs]), fun u hu => ?_, (hdepth ts) ▸ hzero, fun u s hu hd => ?_⟩
      · exact hdepth u ▸ hnonneg (t :: u) (List.cons_prefix_cons.2 ⟨rfl, hu⟩)
      · exact hstop (t :: u) s (List.cons_prefix_cons.2 ⟨rfl, hu⟩) (hdepth u ▸ hd)
  · rintro ⟨heof, hd, hnonneg, heofs, hnonnegs, hzero, hstop⟩
    refine ⟨?_, fun u hu => ?_, (hdepth ts).trans hzero, fun u s hu hu0 => ?_⟩
    · intro s hs
      rcases List.mem_cons.1 hs with rfl | hs
      · exact heof
      · exact heofs s hs
    · cases u with
      | nil => simpa [depth] using hnonneg
      | cons a u =>
        obtain ⟨rfl, htail⟩ := List.cons_prefix_cons.1 hu
        exact (hdepth u).symm ▸ hnonnegs u htail
    · cases u with
      | nil =>
        obtain ⟨rfl, -⟩ := List.cons_prefix_cons.1 hu
        exact hd (by simpa [depth] using hu0)
      | cons a u =>
        obtain ⟨rfl, htail⟩ := List.cons_prefix_cons.1 hu
        exact hstop u s htail (hdepth u ▸ hu0)

theorem nonneg_of_mem {w : List Token} (h : w ∈ fragmentFrom stops d) : 0 ≤ d := by
  simpa [depth] using h.2.1 [] List.nil_prefix

/-- No fragment at the beginning of `w` is ended by a stop token. -/
def NoEnd (stops : List TokenKind) (d : Int) (w : List Token) : Prop :=
  ∀ u s v, w = u ++ s :: v → u ∈ fragmentFrom stops d → s.kind ∉ stops

theorem noEnd_cons (ht : d = 0 → t.kind ∉ stops) (h : NoEnd stops (d + weight t) ts) : NoEnd stops d (t :: ts) := by
  intro u s v hsplit hu
  cases u with
  | nil =>
    obtain ⟨rfl, -⟩ := List.cons.inj hsplit
    exact ht (nil_mem_fragmentFrom.1 hu)
  | cons a u =>
    obtain ⟨rfl, htail⟩ := List.cons.inj hsplit
    exact h u s v htail (cons_mem_fragmentFrom.1 hu).2.2.2

/-- The first token of one of the kinds `stops` outside brackets ends a fragment, so there is only one way to split. -/
theorem fragmentFrom_unique {u v rest rest' : List Token} {s s' : Token} (hu : u ∈ fragmentFrom stops d)
    (hv : v ∈ fragmentFrom stops d) (hs : s.kind ∈ stops) (hs' : s'.kind ∈ stops)
    (h : u ++ s :: rest = v ++ s' :: rest') : u = v ∧ s = s' ∧ rest = rest' := by
  induction u generalizing v d with
  | nil =>
    cases v with
    | nil => simpa using h
    | cons t v =>
      obtain ⟨rfl, -⟩ := List.cons.inj h
      exact absurd hs ((cons_mem_fragmentFrom.1 hv).2.1 (nil_mem_fragmentFrom.1 hu))
  | cons t u ih =>
    cases v with
    | nil =>
      obtain ⟨rfl, -⟩ := List.cons.inj h
      exact absurd hs' ((cons_mem_fragmentFrom.1 hu).2.1 (nil_mem_fragmentFrom.1 hv))
    | cons t' v =>
      obtain ⟨rfl, htail⟩ := List.cons.inj h
      obtain ⟨rfl, hrest⟩ := ih (cons_mem_fragmentFrom.1 hu).2.2.2 (cons_mem_fragmentFrom.1 hv).2.2.2 htail
      exact ⟨rfl, hrest⟩

/-- What follows a fragment and the token that ends it. -/
theorem mem_fragment_mul {u rest : List Token} {s : Token} (hu : u ∈ fragment stops) (hs : s.kind ∈ stops)
    (hk : k ∈ stops) : u ++ s :: rest ∈ fragment stops * (one k * K) ↔ s.kind = k ∧ rest ∈ K := by
  rw [Language.mem_mul]
  constructor
  · rintro ⟨v, hv, w, hw, h⟩
    cases w with
    | nil => exact absurd hw nil_notMem_one_mul
    | cons s' rest' =>
      obtain ⟨hs', hrest'⟩ := cons_mem_one_mul.1 hw
      obtain ⟨-, rfl, rfl⟩ := fragmentFrom_unique hu hv hs (hs' ▸ hk) h.symm
      exact ⟨hs', hrest'⟩
  · rintro ⟨hs', hrest⟩
    exact ⟨u, hu, s :: rest, cons_mem_one_mul.2 ⟨hs', hrest⟩, rfl⟩

theorem mem_ended_mul {ok : List Token → Token → Prop} {u rest : List Token} {s : Token} (hu : u ∈ fragment stops)
    (hs : s.kind ∈ stops) (hk : k ∈ stops) :
    u ++ s :: rest ∈ ended ok stops k * K ↔ s.kind = k ∧ ok u s ∧ rest ∈ K := by
  rw [Language.mem_mul]
  constructor
  · rintro ⟨_, ⟨v, s', hv, hs', hok, rfl⟩, rest', hrest', h⟩
    rw [List.append_assoc] at h
    obtain ⟨rfl, rfl, rfl⟩ := fragmentFrom_unique hu hv hs (hs' ▸ hk) h.symm
    exact ⟨hs', hok, hrest'⟩
  · rintro ⟨hs', hok, hrest⟩
    exact ⟨u ++ [s], ⟨u, s, hu, hs', hok, rfl⟩, rest, hrest, by simp⟩

theorem NoEnd.notMem_fragment_mul (h : NoEnd stops 0 ts) (hk : k ∈ stops) : ts ∉ fragment stops * (one k * K) := by
  rw [Language.mem_mul]
  rintro ⟨u, hu, w, hw, rfl⟩
  cases w with
  | nil => exact nil_notMem_one_mul hw
  | cons s rest => exact h u s rest rfl hu ((cons_mem_one_mul.1 hw).1 ▸ hk)

theorem NoEnd.notMem_ended_mul {ok : List Token → Token → Prop} (h : NoEnd stops 0 ts) (hk : k ∈ stops) :
    ts ∉ ended ok stops k * K := by
  rw [Language.mem_mul]
  rintro ⟨_, ⟨u, s, hu, hs, -, rfl⟩, rest, -, rfl⟩
  exact h u s rest (by simp) hu (hs ▸ hk)

/-! ### Bodies -/

/-- A semicolon at the beginning can be left out. -/
def Absorbs (K : FormalLanguage Token) : Prop := ∀ t ts, t.kind = .semicolon → t :: ts ∈ K → ts ∈ K

theorem Absorbs.optional_mul (hK : Absorbs K) (ht : t.kind = .semicolon) :
    t :: ts ∈ optional (one .semicolon) * K ↔ ts ∈ K := by
  rw [mem_optional_mul, cons_mem_one_mul, and_iff_right ht]
  exact or_iff_right_of_imp (hK t ts ht)

theorem cons_mem_optional_mul (ht : t.kind ≠ k) : t :: ts ∈ optional (one k) * K ↔ t :: ts ∈ K := by
  rw [mem_optional_mul, cons_mem_one_mul]
  exact or_iff_left fun h => ht h.1

theorem absorbs_body : Absorbs (fragment [.rbrace] * (one .rbrace * K)) := by
  intro t ts ht h
  obtain ⟨u, hu, v, hv, hsplit⟩ := Language.mem_mul.1 h
  cases u with
  | nil =>
    obtain rfl : v = t :: ts := hsplit
    exact absurd ((cons_mem_one_mul.1 hv).1.symm.trans ht) (by simp)
  | cons a u =>
    obtain ⟨rfl, rfl⟩ := List.cons.inj hsplit
    have hweight : weight a = 0 := weight_other (by simp [ht, TokenKind.isOpening]) (by simp [ht, TokenKind.isClosing])
    have hts := (cons_mem_fragmentFrom.1 hu).2.2.2
    rw [hweight] at hts
    exact Language.mem_mul.2 ⟨u, hts, v, hv, rfl⟩

theorem cons_mem_plainBody_mul : t :: ts ∈ plainBody * (one .rbrace * K) ↔
    t.kind ≠ .keyword .super ∧ t :: ts ∈ fragment [.rbrace] * (one .rbrace * K) := by
  simp only [Language.mem_mul]
  constructor
  · rintro ⟨u, ⟨hu, hplain⟩, v, hv, hsplit⟩
    refine ⟨?_, u, hu, v, hv, hsplit⟩
    cases u with
    | nil =>
      obtain rfl : v = t :: ts := hsplit
      simp [(cons_mem_one_mul.1 hv).1]
    | cons a u =>
      obtain ⟨rfl, -⟩ := List.cons.inj hsplit
      exact hplain a u rfl
  · rintro ⟨hsuper, u, hu, v, hv, hsplit⟩
    refine ⟨u, ⟨hu, ?_⟩, v, hv, hsplit⟩
    rintro a u rfl
    obtain ⟨rfl, -⟩ := List.cons.inj hsplit
    exact hsuper

/-! ### Kinds of members and declarations -/

theorem kind_of_spec (h : t :: ts ∈ spec * K) : t.kind = .ident ∨ t.kind = .dot ∨ t.kind = .string := by
  rw [spec, mul_assoc, mem_optional_mul, mem_add_mul, cons_mem_one_mul, cons_mem_one_mul, cons_mem_one_mul] at h
  rcases h with h | h | h
  · exact .inr (.inr h.1)
  · exact .inl h.1
  · exact .inr (.inl h.1)

theorem cons_mem_specs : t :: ts ∈ (spec + one .semicolon)∗ * (one .rparen * K) ↔
    t.kind = .rparen ∧ ts ∈ K ∨ t.kind = .semicolon ∧ ts ∈ (spec + one .semicolon)∗ * (one .rparen * K) ∨
      t :: ts ∈ spec * ((spec + one .semicolon)∗ * (one .rparen * K)) := by
  rw [mem_kstar_mul, mem_add_mul, cons_mem_one_mul, cons_mem_one_mul, or_comm (a := t :: ts ∈ spec * _)]

section Fields

variable {ok : List Token → Token → Prop}

/-- The first token tells what kind of member it is. -/
theorem cons_mem_member_mul : t :: ts ∈ member ok * K ↔
    t.kind = .semicolon ∧ ts ∈ K ∨ t.kind = .keyword .let ∧ t :: ts ∈ field ok * K ∨
      t.kind = .keyword .constructor ∧ t :: ts ∈ constructor * K ∨
      (t.kind = .keyword .fn ∨ t.kind = .keyword .override) ∧ t :: ts ∈ method * K := by
  have hfield : t :: ts ∈ field ok * K → t.kind = .keyword .let := by
    simp only [field, mul_assoc, cons_mem_one_mul]
    exact And.left
  have hconstructor : t :: ts ∈ constructor * K → t.kind = .keyword .constructor := by
    simp only [constructor, mul_assoc, cons_mem_one_mul]
    exact And.left
  have hmethod : t :: ts ∈ method * K → t.kind = .keyword .fn ∨ t.kind = .keyword .override := by
    simp only [method, mul_assoc, mem_optional_mul, cons_mem_one_mul]
    exact Or.imp And.left And.left
  rw [member, mem_add_mul, mem_add_mul, mem_add_mul, cons_mem_one_mul, and_iff_right_of_imp hfield,
    and_iff_right_of_imp hconstructor, and_iff_right_of_imp hmethod, or_assoc, or_assoc]

/-- The first token tells what kind of declaration it is. -/
theorem cons_mem_declaration_mul : t :: ts ∈ declaration ok * K ↔
    t.kind = .keyword .package ∧ t :: ts ∈ named .package * K ∨ t.kind = .keyword .import ∧ t :: ts ∈ importDecl * K ∨
      t.kind = .keyword .arena ∧ t :: ts ∈ named .arena * K ∨ t.kind = .keyword .meaning ∧ t :: ts ∈ meaning ok * K ∨
      t.kind = .semicolon ∧ ts ∈ K := by
  have hnamed : ∀ w, t :: ts ∈ named w * K → t.kind = .keyword w := by
    intro w
    simp only [named, mul_assoc, cons_mem_one_mul]
    exact And.left
  have himport : t :: ts ∈ importDecl * K → t.kind = .keyword .import := by
    simp only [importDecl, mem_add_mul, mul_assoc, cons_mem_one_mul]
    exact Or.rec And.left And.left
  have hmeaning : t :: ts ∈ meaning ok * K → t.kind = .keyword .meaning := by
    simp only [meaning, mul_assoc, cons_mem_one_mul]
    exact And.left
  rw [declaration, mem_add_mul, mem_add_mul, mem_add_mul, mem_add_mul, cons_mem_one_mul,
    and_iff_right_of_imp (hnamed _), and_iff_right_of_imp (hnamed _), and_iff_right_of_imp himport,
    and_iff_right_of_imp hmeaning, or_assoc, or_assoc, or_assoc]

theorem cons_mem_file (ht : t.kind ≠ .eof) : t :: ts ∈ file ok ↔ t :: ts ∈ declaration ok * file ok := by
  have hend : t :: ts ∉ one .eof := by
    rintro ⟨s, hs, h⟩
    obtain ⟨rfl, -⟩ := List.cons.inj h
    exact ht hs
  rw [file, mem_kstar_mul]
  exact or_iff_right hend

theorem absorbs_file : Absorbs (file ok) := by
  intro t ts ht h
  rw [cons_mem_file (by simp [ht]), cons_mem_declaration_mul] at h
  simpa [ht] using h

end Fields

end MeaningForest.Grammar
