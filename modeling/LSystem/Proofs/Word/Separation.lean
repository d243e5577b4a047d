import Mathlib.Data.List.Basic
import LSystem.Proofs.Word.Factoring

/-! # White space separates

When no symbol contains white space, a symbol that fits before a blank ends before it. What follows
the blank therefore changes no token in front of it, and a text is read as its parts on both sides.
A word is read back from its symbols with blanks between them.
-/

namespace LSystem

/-- No symbol of the alphabet contains white space. -/
def Alphabet.Solid (a : Alphabet) : Prop := ∀ s ∈ a, ∀ c ∈ s.toList, ¬ isWhiteSpace c

/-- What is read as one letter when it stands alone. -/
inductive Alphabet.Reads (a : Alphabet) : String → Prop
  | single {c : Char} : ¬ isWhiteSpace c → Reads a (String.singleton c)
  | symbol {s : String} : s ≠ "" → s ∈ a → Reads a s

variable {a : Alphabet} {c : Char} {text rest t : List Char}

theorem prefix_append_cons_iff (h : c ∉ t) : t <+: text ++ c :: rest ↔ t <+: text := by
  refine ⟨fun hp => ?_, fun hp => hp.trans (List.prefix_append text _)⟩
  rcases List.prefix_or_prefix_of_prefix hp (List.prefix_append text _) with hp' | ⟨u, rfl⟩
  · exact hp'
  · rw [List.prefix_append_right_inj, List.prefix_cons_iff] at hp
    rcases hp with rfl | ⟨v, rfl, -⟩
    · simp
    · exact absurd (List.mem_append_right text List.mem_cons_self) h

section Token

variable (ha : a.Solid) (hc : isWhiteSpace c)
include ha hc

theorem Alphabet.Solid.begins_append_cons_iff :
    a.Begins (text ++ c :: rest) t ↔ a.Begins text t := by
  have hfits : String.ofList t ∈ a → (t <+: text ++ c :: rest ↔ t <+: text) := by
    intro ht
    refine prefix_append_cons_iff fun hmem => ha _ ht c ?_ hc
    rwa [String.toList_ofList]
  constructor
  · rintro ⟨hmem, htwo, hp⟩
    exact ⟨hmem, htwo, (hfits hmem).mp hp⟩
  · rintro ⟨hmem, htwo, hp⟩
    exact ⟨hmem, htwo, (hfits hmem).mpr hp⟩

theorem IsToken.append_cons (h : IsToken a text t) : IsToken a (text ++ c :: rest) t :=
  h.congr (fun _ => (ha.begins_append_cons_iff hc).symm)
    (h.isPrefix.trans (List.prefix_append text _))

end Token

section Text

theorem atToken_append_left (ht : t ≠ []) : AtToken (t ++ text) ↔ AtToken t := by
  obtain ⟨d, ds, rfl⟩ := List.exists_cons_of_ne_nil ht
  rfl

/-- In front of a blank the tokens are those of what stands in front of it. -/
theorem Factoring.Valid.tokens_append_cons (ha : a.Solid) (hc : isWhiteSpace c) {f : Factoring}
    (hf : f.Valid a) (rest : List Char) :
    LSystem.tokens a.spellings (f.text ++ c :: rest) =
      f.tokens ++ LSystem.tokens a.spellings rest := by
  induction hf with
  | @last gap hgap =>
    rw [text, tokens_append_of_blank hgap, tokens_cons_of_blank hc, tokens, List.nil_append]
  | @piece gap token f hgap hat htoken _ ih =>
    have htoken' : IsToken a (token ++ f.text ++ c :: rest) token := htoken.append_cons ha hc
    have hat' : AtToken (token ++ (f.text ++ c :: rest)) :=
      (atToken_append_left htoken.ne_nil).mpr ((atToken_append_left htoken.ne_nil).mp hat)
    rw [List.append_assoc] at htoken'
    rw [text, List.append_assoc, List.append_assoc, tokens_append_of_blank hgap,
      tokens_append_of_isToken hat' htoken', ih, tokens, List.cons_append]

namespace Word

theorem parse_append (ha : a.Solid) (hc : isWhiteSpace c) (t u : String) :
    parse a (t ++ String.singleton c ++ u) = parse a t ++ parse a u := by
  obtain ⟨f, hf, htext⟩ := Factoring.exists_valid a t.toList
  have htoList : (t ++ String.singleton c ++ u).toList = f.text ++ c :: u.toList := by
    simp [htext]
  rw [parse, parse, parse, htoList, hf.tokens_append_cons ha hc, ← htext, hf.tokens_eq,
    List.map_append]

end Word

end Text

section Letters

theorem isToken_singleton (a : Alphabet) (c : Char) : IsToken a [c] [c] := by
  refine .single List.prefix_rfl fun s hs => ?_
  have hle := hs.isPrefix.length_le
  exact absurd hs.two_le (Nat.not_le_of_lt (Nat.lt_succ_of_le hle))

theorem Alphabet.Reads.isToken (ha : a.Solid) {s : String} (h : a.Reads s) :
    AtToken s.toList ∧ IsToken a s.toList s.toList := by
  cases h with
  | @single c hc =>
    rw [String.toList_singleton]
    refine ⟨?_, isToken_singleton a c⟩
    rintro _ ⟨⟩
    exact hc
  | symbol hne hmem =>
    constructor
    · intro c hc
      exact ha s hmem c (List.mem_of_mem_head? hc)
    · by_cases htwo : 2 ≤ s.toList.length
      · refine .symbol ⟨?_, htwo, List.prefix_rfl⟩ fun u hu => hu.isPrefix.length_le
        rwa [String.ofList_toList]
      · obtain ⟨c, hc⟩ : ∃ c, s.toList = [c] := by
          refine List.length_eq_one_iff.mp ?_
          have hpos : s.toList ≠ [] := fun hnil => hne (String.toList_eq_nil_iff.mp hnil)
          have := List.length_pos_iff.mpr hpos
          omega
        rw [hc]
        exact isToken_singleton a c

namespace Word

theorem parse_of_reads (ha : a.Solid) {s : String} (h : a.Reads s) :
    parse a s = [Letter.ofToken s] := by
  obtain ⟨hat, htoken⟩ := h.isToken ha
  have hat' : AtToken (s.toList ++ []) := by rwa [List.append_nil]
  have htoken' : IsToken a (s.toList ++ []) s.toList := by rwa [List.append_nil]
  have htokens := tokens_append_of_isToken hat' htoken'
  rw [List.append_nil, tokens_nil] at htokens
  rw [parse, htokens, List.map_singleton, String.ofList_toList]

/-- Letters with a blank between each two are read back. -/
theorem parse_intercalate (ha : a.Solid) {w : Word}
    (hw : ∀ l ∈ w, ∃ s, a.Reads s ∧ l = Letter.ofToken s) :
    parse a (" ".intercalate (w.map Letter.symbol)) = w := by
  induction w with
  | nil =>
    rw [List.map_nil, String.intercalate_nil, parse, String.toList_empty, tokens_nil, List.map_nil]
  | cons l w ih =>
    obtain ⟨⟨s, hs, rfl⟩, hrest⟩ := List.forall_mem_cons.mp hw
    cases w with
    | nil =>
      rw [List.map_singleton, String.intercalate_singleton, Letter.symbol_ofToken,
        parse_of_reads ha hs]
    | cons l' w =>
      have hblank : isWhiteSpace ' ' := by decide
      have hsplit := parse_append ha hblank s (" ".intercalate ((l' :: w).map Letter.symbol))
      rw [parse_of_reads ha hs, ih hrest, List.singleton_append] at hsplit
      rwa [List.map_cons, List.map_cons, String.intercalate_cons_cons, ← List.map_cons,
        Letter.symbol_ofToken]

end Word

end Letters

namespace Word

/-- Where no symbol contains white space, a text is read as its parts on both sides of a blank, and
every word of letters that can be read is read back from its symbols with spaces between them. -/
theorem parse_separated (ha : a.Solid) :
    (∀ (t u : String) (c : Char), isWhiteSpace c →
      parse a (t ++ String.singleton c ++ u) = parse a t ++ parse a u) ∧
    ∀ w : Word, (∀ l ∈ w, ∃ s, a.Reads s ∧ l = Letter.ofToken s) →
      parse a (" ".intercalate (w.map Letter.symbol)) = w :=
  ⟨fun t u _ hc => parse_append ha hc t u, fun _ hw => parse_intercalate ha hw⟩

theorem parse_separated_overlapping :
    let a := Alphabet.ofList ["F", "Fl", "Flx", ""]
    let w : Word := [.edge "Fl" .left, .plain "x", .plain "Flx", .plain "F"]
    a.Solid ∧ isWhiteSpace '\u3000' ∧
      parse a ("Fl" ++ String.singleton '\u3000' ++ "xF") =
        [.edge "Fl" .left, .plain "x", .plain "F"] ∧
      parse a "FlxF" = [.plain "Flx", .plain "F"] ∧
      (∀ l ∈ w, ∃ s, a.Reads s ∧ l = Letter.ofToken s) ∧
      parse a (" ".intercalate (w.map Letter.symbol)) = w := by
  intro a w
  have hsolid : ∀ s ∈ ["F", "Fl", "Flx", ""], s.toList.any isWhiteSpace = false := by decide
  have ha : a.Solid := fun s hs => List.any_eq_false.mp (hsolid s (Alphabet.mem_ofList.mp hs))
  have hw : ∀ l ∈ w, ∃ s, a.Reads s ∧ l = Letter.ofToken s := by
    simp only [w, List.forall_mem_cons]
    refine ⟨⟨"Fl", .symbol ?_ ?_, rfl⟩, ⟨"x", .single (c := 'x') ?_, rfl⟩,
      ⟨"Flx", .symbol ?_ ?_, rfl⟩, ⟨"F", .symbol ?_ ?_, rfl⟩, nofun⟩
    all_goals decide
  have hc : isWhiteSpace '\u3000' := by decide
  obtain ⟨happend, hjoin⟩ := parse_separated ha
  have hedge : parse a "Fl" = [.edge "Fl" .left] := by cbv
  have hx : parse a "xF" = [.plain "x", .plain "F"] := by cbv
  refine ⟨ha, hc, ?_, by cbv, hw, hjoin w hw⟩
  rw [happend _ _ _ hc, hedge, hx]
  rfl

end Word

end LSystem
