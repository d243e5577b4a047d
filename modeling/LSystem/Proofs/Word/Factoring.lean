import Mathlib.Logic.ExistsUnique
import LSystem.Word.Basic

/-! # Factoring a text into tokens

A text factors into tokens and gaps of white space around them, where each token is the longest
symbol that fits at its place. There is one such factoring, and the letters of a word are those of
its tokens.
-/

namespace LSystem

/-- A text as gaps and tokens in turn, with a gap at either end. -/
inductive Factoring where
  | last (gap : List Char)
  | piece (gap token : List Char) (rest : Factoring)

def Factoring.text : Factoring → List Char
  | last gap => gap
  | piece gap token rest => gap ++ (token ++ rest.text)

def Factoring.tokens : Factoring → List (List Char)
  | last _ => []
  | piece _ token rest => token :: rest.tokens

def Blank (gap : List Char) : Prop := ∀ c ∈ gap, isWhiteSpace c

def AtToken (text : List Char) : Prop := ∀ c ∈ text.head?, ¬ isWhiteSpace c

/-- The text begins with a symbol of more than one character. -/
structure Alphabet.Begins (a : Alphabet) (text symbol : List Char) : Prop where
  mem : String.ofList symbol ∈ a
  two_le : 2 ≤ symbol.length
  isPrefix : symbol <+: text

/-- The token that the text begins with. -/
inductive IsToken (a : Alphabet) (text : List Char) : List Char → Prop
  | symbol {t : List Char} : a.Begins text t → (∀ s, a.Begins text s → s.length ≤ t.length) →
      IsToken a text t
  | single {c : Char} : [c] <+: text → (∀ s, ¬ a.Begins text s) → IsToken a text [c]

/-- Every gap is white space, and every token is the one at its place. -/
inductive Factoring.Valid (a : Alphabet) : Factoring → Prop
  | last {gap : List Char} : Blank gap → Valid a (last gap)
  | piece {gap token : List Char} {rest : Factoring} : Blank gap → AtToken (token ++ rest.text) →
      IsToken a (token ++ rest.text) token → Valid a rest → Valid a (piece gap token rest)

variable {a : Alphabet} {c : Char} {text : List Char}

section Token

theorem IsToken.isPrefix {t : List Char} (h : IsToken a text t) : t <+: text := by
  cases h with
  | symbol hb _ => exact hb.isPrefix
  | single hp _ => exact hp

theorem IsToken.congr {b : Alphabet} {text' t : List Char}
    (hbegins : ∀ s, a.Begins text s ↔ b.Begins text' s) (hp : t <+: text') (h : IsToken a text t) :
    IsToken b text' t := by
  cases h with
  | symbol hb hmax =>
    exact .symbol ((hbegins t).mp hb) fun s hs => hmax s ((hbegins s).mpr hs)
  | single _ hnone => exact .single hp fun s hs => hnone s ((hbegins s).mpr hs)

theorem IsToken.ne_nil {t : List Char} (h : IsToken a text t) : t ≠ [] := by
  rintro rfl
  cases h with
  | symbol hb _ => exact absurd hb.two_le (by decide)

theorem IsToken.eq {s t : List Char} (hs : IsToken a text s) (ht : IsToken a text t) : s = t := by
  have hp := hs.isPrefix
  cases hs with
  | symbol hb hmax =>
    cases ht with
    | symbol hb' hmax' =>
      have hlen : s.length = t.length := Nat.le_antisymm (hmax' s hb) (hmax t hb')
      exact (List.prefix_of_prefix_length_le hp hb'.isPrefix (Nat.le_of_eq hlen)).eq_of_length hlen
    | single _ hnone => exact absurd hb (hnone s)
  | single _ hnone =>
    cases ht with
    | symbol hb' _ => exact absurd hb' (hnone t)
    | single hp' _ =>
      exact (List.prefix_of_prefix_length_le hp hp' (Nat.le_refl 1)).eq_of_length rfl

theorem any_initial?_iff {symbols : List (List Char)} {n : Nat} :
    (initial? n text).any (· ∈ symbols) ↔ ∃ t ∈ symbols, t <+: text ∧ t.length = n := by
  simp only [Option.any_eq_true, initial?_eq_some_iff, decide_eq_true_eq]
  constructor
  · rintro ⟨t, ht, hmem⟩
    exact ⟨t, hmem, ht⟩
  · rintro ⟨t, hmem, ht⟩
    exact ⟨t, ht, hmem⟩

/-- What the search from `n` downward finds: the longest symbol of at most `n` characters, or one
character when there is none. -/
theorem tokenLength_cases (symbols : List (List Char)) (text : List Char) (n : Nat) :
    (∃ t ∈ symbols, 2 ≤ t.length ∧ t <+: text ∧ t.length = tokenLength symbols text n ∧
      ∀ s ∈ symbols, s <+: text → s.length ≤ n → s.length ≤ t.length) ∨
    (tokenLength symbols text n = 1 ∧
      ∀ s ∈ symbols, s <+: text → s.length ≤ n → s.length < 2) := by
  fun_induction tokenLength symbols text n with
  | case1 =>
    right
    exact ⟨rfl, fun s _ _ hs => Nat.lt_of_le_of_lt hs (by decide)⟩
  | case2 =>
    right
    exact ⟨rfl, fun s _ _ hs => Nat.lt_succ_of_le hs⟩
  | case3 n hany =>
    left
    obtain ⟨t, ht, hp, hlen⟩ := any_initial?_iff.mp hany
    refine ⟨t, ht, by omega, hp, hlen, ?_⟩
    intro s _ _ hs
    rwa [hlen]
  | case4 n hany ih =>
    -- no symbol of exactly `n + 2` characters is a prefix
    have hne : ∀ s ∈ symbols, s <+: text → s.length ≠ n + 2 := by
      intro s hs hp hlen
      exact hany (any_initial?_iff.mpr ⟨s, hs, hp, hlen⟩)
    rcases ih with ⟨t, ht, htwo, hp, hlen, hmax⟩ | ⟨hone, hnone⟩
    · left
      refine ⟨t, ht, htwo, hp, hlen, ?_⟩
      intro s hs hps hle
      have := hne s hs hps
      exact hmax s hs hps (by omega)
    · right
      refine ⟨hone, ?_⟩
      intro s hs hps hle
      have := hne s hs hps
      exact hnone s hs hps (by omega)

theorem isToken_take (a : Alphabet) (c : Char) (rest : List Char) :
    IsToken a (c :: rest)
      ((c :: rest).take (tokenLength a.spellings (c :: rest) (longest a.spellings))) := by
  rcases tokenLength_cases a.spellings (c :: rest) (longest a.spellings) with
    ⟨t, ht, htwo, hp, hlen, hmax⟩ | ⟨hone, hnone⟩
  · rw [← hlen, ← List.prefix_iff_eq_take.mp hp]
    refine .symbol ⟨Alphabet.mem_spellings_iff.mp ht, htwo, hp⟩ ?_
    rintro s ⟨hs, -, hps⟩
    have hmem := Alphabet.mem_spellings_iff.mpr hs
    exact hmax s hmem hps (length_le_longest hmem)
  · rw [hone]
    refine .single ⟨rest, rfl⟩ ?_
    rintro s ⟨hs, htwo, hps⟩
    have hmem := Alphabet.mem_spellings_iff.mpr hs
    exact absurd (hnone s hmem hps (length_le_longest hmem)) (Nat.not_lt_of_le htwo)

theorem tokens_append_of_isToken {t : List Char} (hat : AtToken (t ++ text))
    (h : IsToken a (t ++ text) t) :
    tokens a.spellings (t ++ text) = t :: tokens a.spellings text := by
  obtain ⟨c, cs, rfl⟩ := List.exists_cons_of_ne_nil h.ne_nil
  have htake := (isToken_take a c (cs ++ text)).eq h
  have hdrop := List.take_append_drop
    (tokenLength a.spellings (c :: (cs ++ text)) (longest a.spellings)) (c :: (cs ++ text))
  rw [htake] at hdrop
  rw [List.cons_append, tokens_cons (hat c rfl), htake, List.append_cancel_left hdrop]

end Token

section Gap

theorem tokens_append_of_blank {symbols : List (List Char)} {gap : List Char} (h : Blank gap) :
    tokens symbols (gap ++ text) = tokens symbols text := by
  induction gap with
  | nil => rfl
  | cons c gap ih =>
    obtain ⟨hc, hgap⟩ := List.forall_mem_cons.mp h
    rw [List.cons_append, tokens_cons_of_blank hc, ih hgap]

theorem takeWhile_append_of_blank {gap : List Char} (h : Blank gap) (ht : AtToken text) :
    (gap ++ text).takeWhile isWhiteSpace = gap := by
  rw [List.takeWhile_append_of_pos h]
  cases text with
  | nil => rw [List.takeWhile_nil, List.append_nil]
  | cons c text => rw [List.takeWhile_cons_of_neg (ht c rfl), List.append_nil]

theorem eq_of_blank_append {gap gap' text' : List Char} (h : Blank gap) (h' : Blank gap')
    (ht : AtToken text) (ht' : AtToken text') (heq : gap ++ text = gap' ++ text') :
    gap = gap' ∧ text = text' := by
  have hgap : gap = gap' := by
    rw [← takeWhile_append_of_blank h ht, heq, takeWhile_append_of_blank h' ht']
  subst hgap
  exact ⟨rfl, List.append_cancel_left heq⟩

theorem atToken_nil : AtToken [] := nofun

end Gap

namespace Factoring

theorem Valid.tokens_eq {f : Factoring} (hf : f.Valid a) :
    LSystem.tokens a.spellings f.text = f.tokens := by
  induction hf with
  | @last gap hgap =>
    rw [text, ← List.append_nil gap, tokens_append_of_blank hgap, tokens_nil, tokens]
  | @piece gap token rest hgap hat htoken _ ih =>
    rw [text, tokens_append_of_blank hgap, tokens_append_of_isToken hat htoken, ih, tokens]

/-- A text has one valid factoring only. -/
theorem Valid.eq {f g : Factoring} (hf : f.Valid a) (hg : g.Valid a) (h : f.text = g.text) :
    f = g := by
  induction hf generalizing g with
  | @last gap hgap =>
    rw [text, ← List.append_nil gap] at h
    cases hg with
    | @last gap' hgap' =>
      rw [text, ← List.append_nil gap'] at h
      obtain ⟨rfl, -⟩ := eq_of_blank_append hgap hgap' atToken_nil atToken_nil h
      rfl
    | piece hgap' hat' htoken' _ =>
      obtain ⟨-, hnil⟩ := eq_of_blank_append hgap hgap' atToken_nil hat' h
      exact absurd (List.append_eq_nil_iff.mp hnil.symm).1 htoken'.ne_nil
  | @piece gap token rest hgap hat htoken _ ih =>
    rw [text] at h
    cases hg with
    | @last gap' hgap' =>
      rw [text, ← List.append_nil gap'] at h
      obtain ⟨-, hnil⟩ := eq_of_blank_append hgap hgap' hat atToken_nil h
      exact absurd (List.append_eq_nil_iff.mp hnil).1 htoken.ne_nil
    | @piece gap' token' rest' hgap' hat' htoken' hrest' =>
      obtain ⟨rfl, hrest⟩ := eq_of_blank_append hgap hgap' hat hat' h
      rw [← hrest] at htoken'
      obtain rfl := htoken.eq htoken'
      rw [ih hrest' (List.append_cancel_left hrest)]

def blank (c : Char) : Factoring → Factoring
  | last gap => last (c :: gap)
  | piece gap token rest => piece (c :: gap) token rest

theorem text_blank (c : Char) (f : Factoring) : (f.blank c).text = c :: f.text := by
  cases f <;> rfl

theorem Valid.blank {f : Factoring} (hf : f.Valid a) (hc : isWhiteSpace c) :
    (f.blank c).Valid a := by
  cases hf with
  | last hgap => exact .last (List.forall_mem_cons.mpr ⟨hc, hgap⟩)
  | piece hgap hat htoken hrest =>
    exact .piece (List.forall_mem_cons.mpr ⟨hc, hgap⟩) hat htoken hrest

theorem exists_valid (a : Alphabet) (text : List Char) :
    ∃ f : Factoring, f.Valid a ∧ f.text = text := by
  fun_induction tokensUpTo a.spellings (longest a.spellings) text with
  | case1 => exact ⟨last [], .last nofun, rfl⟩
  | case2 c rest hc ih =>
    obtain ⟨f, hf, rfl⟩ := ih
    exact ⟨f.blank c, hf.blank hc, text_blank c f⟩
  | case3 c rest hc k ih =>
    obtain ⟨f, hf, htext⟩ := ih
    have hcut : (c :: rest).take k ++ f.text = c :: rest := by
      rw [htext, List.take_append_drop]
    refine ⟨piece [] ((c :: rest).take k) f, .piece nofun ?_ ?_ hf, hcut⟩
    · rw [hcut]
      rintro _ ⟨⟩
      exact hc
    · rw [hcut]
      exact isToken_take a c rest

theorem Valid.text_eq_flatten {f : Factoring} (hf : f.Valid a)
    (h : ∀ c ∈ f.text, ¬ isWhiteSpace c) : f.text = f.tokens.flatten := by
  have hnil : ∀ {gap : List Char}, Blank gap → (∀ c ∈ gap, ¬ isWhiteSpace c) → gap = [] := by
    intro gap hgap hno
    exact List.eq_nil_iff_forall_not_mem.mpr fun c hc => hno c hc (hgap c hc)
  induction hf with
  | last hgap => exact hnil hgap h
  | piece hgap _ _ _ ih =>
    obtain ⟨hno, htail⟩ := List.forall_mem_append.mp h
    obtain ⟨-, hrest⟩ := List.forall_mem_append.mp htail
    rw [text, hnil hgap hno, List.nil_append, ih hrest, tokens, List.flatten_cons]

end Factoring

namespace Word

theorem display_map_ofToken (ts : List (List Char)) :
    display (ts.map fun t => Letter.ofToken (String.ofList t)) = String.ofList ts.flatten := by
  have hsymbol : Letter.symbol ∘ (fun t => Letter.ofToken (String.ofList t)) = String.ofList :=
    funext fun t => Letter.symbol_ofToken (String.ofList t)
  rw [display, List.map_map, hsymbol, ← String.toList_inj, String.toList_join, String.toList_ofList,
    List.flatMap_map]
  simp

/-- A text factors in one way, and its word has the letters of the tokens. Without white space the
word is displayed as the text. -/
theorem parse_factoring (a : Alphabet) (text : String) :
    (∃! f : Factoring, f.Valid a ∧ f.text = text.toList) ∧
      (∀ f : Factoring, f.Valid a → f.text = text.toList →
        parse a text = f.tokens.map fun t => Letter.ofToken (String.ofList t)) ∧
      ((∀ c ∈ text.toList, ¬ isWhiteSpace c) → (parse a text).display = text) := by
  obtain ⟨f, hf, htext⟩ := Factoring.exists_valid a text.toList
  have hparse : ∀ g : Factoring, g.Valid a → g.text = text.toList →
      parse a text = g.tokens.map fun t => Letter.ofToken (String.ofList t) := by
    intro g hg hgtext
    rw [parse, ← hgtext, hg.tokens_eq]
  refine ⟨⟨f, ⟨hf, htext⟩, ?_⟩, hparse, ?_⟩
  · rintro g ⟨hg, hgtext⟩
    exact hg.eq hf (hgtext.trans htext.symm)
  · intro hno
    rw [hparse f hf htext, display_map_ofToken, ← hf.text_eq_flatten (htext ▸ hno), htext,
      String.ofList_toList]

end Word

end LSystem
