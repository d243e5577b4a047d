import LSystem.Proofs.Grammar.Adding
import LSystem.Proofs.Grammar.Policies
import LSystem.Proofs.Sketch.Building
import LSystem.Proofs.Word.Factoring

/-! # Reading with the alphabet of a grammar

A document is read with the symbols that it declares, and the grammar that is built from it may have
more. Those it has got by inference are symbols of letters that were read, so they are declared or
single characters; and single characters change no token. The grammar therefore reads every text as
the document was read.
-/

namespace LSystem

section Tokens

variable {a b : Alphabet} {text t : List Char} {l : Letter}

/-- The symbols of more than one character, which decide how a text is cut, are the same. -/
def Alphabet.SameTokens (a b : Alphabet) : Prop :=
  ∀ s : String, 2 ≤ s.length → (s ∈ a ↔ s ∈ b)

theorem Alphabet.SameTokens.begins_iff (h : a.SameTokens b) : a.Begins text t ↔ b.Begins text t := by
  have hmem : 2 ≤ t.length → (String.ofList t ∈ a ↔ String.ofList t ∈ b) := fun ht =>
    h _ (by rwa [String.length_ofList])
  constructor
  · rintro ⟨hin, htwo, hp⟩
    exact ⟨(hmem htwo).mp hin, htwo, hp⟩
  · rintro ⟨hin, htwo, hp⟩
    exact ⟨(hmem htwo).mpr hin, htwo, hp⟩

theorem IsToken.of_sameTokens (h : a.SameTokens b) (ht : IsToken a text t) : IsToken b text t :=
  ht.congr (fun _ => h.begins_iff) ht.isPrefix

namespace Factoring

variable {f : Factoring}

theorem Valid.of_sameTokens (h : a.SameTokens b) (hf : f.Valid a) : f.Valid b := by
  induction hf with
  | last hgap => exact .last hgap
  | piece hgap hat htoken _ ih => exact .piece hgap hat (htoken.of_sameTokens h) ih

theorem Valid.exists_isToken (hf : f.Valid a) (ht : t ∈ f.tokens) : ∃ text, IsToken a text t := by
  induction hf with
  | last => cases ht
  | piece _ _ htoken _ ih =>
    rcases List.mem_cons.mp ht with rfl | ht
    · exact ⟨_, htoken⟩
    · exact ih ht

end Factoring

namespace Word

theorem parse_eq_of_valid {f : Factoring} {text : String} (hf : f.Valid a)
    (h : f.text = text.toList) :
    parse a text = f.tokens.map fun t => Letter.ofToken (String.ofList t) := by
  rw [parse, ← h, hf.tokens_eq]

/-- Symbols of a single character change nothing in how a text is read. -/
theorem parse_congr (h : a.SameTokens b) (text : String) : parse a text = parse b text := by
  obtain ⟨f, hf, htext⟩ := Factoring.exists_valid a text.toList
  rw [parse_eq_of_valid hf htext, parse_eq_of_valid (hf.of_sameTokens h) htext]

/-- The symbol of a letter that is read is a symbol of the alphabet or a single character. -/
theorem mem_or_length_of_mem_parse {text : String} (hl : l ∈ parse a text) :
    l.symbol ∈ a ∨ l.symbol.length = 1 := by
  obtain ⟨f, hf, htext⟩ := Factoring.exists_valid a text.toList
  rw [parse_eq_of_valid hf htext] at hl
  obtain ⟨t, ht, rfl⟩ := List.mem_map.mp hl
  obtain ⟨text, htoken⟩ := hf.exists_isToken ht
  rw [Letter.symbol_ofToken]
  cases htoken with
  | symbol hb _ => exact .inl hb.mem
  | single => exact .inr (String.length_ofList ..)

end Word

end Tokens

namespace GrammarText

variable {t : GrammarText} {g : Grammar} {s : String}

theorem describes_of_build (h : t.build = .ok g) :
    t.Describes g ∧ ∀ s, s ∈ g.alphabet ↔ s ∈ t.declared ∨ Grammar.Uses g.start g.rules s := by
  obtain ⟨rules, hrules, h⟩ := bind_eq_ok_iff.mp h
  obtain ⟨rs, hrs, h⟩ := bind_eq_ok_iff.mp h
  obtain ⟨grammar, hbuild, h⟩ := bind_eq_ok_iff.mp h
  cases h
  obtain ⟨rs', hrs', -, rfl⟩ := RuleSet.ofRules_of_nodup (RuleSet.ofRules_eq_ok_iff.mp ⟨rs, hrs⟩)
  obtain rfl := Except.ok.inj (hrs.symm.trans hrs')
  obtain ⟨hstart, rfl, hpolicy, halphabet⟩ := Grammar.parts_of_build hbuild
  have hdescribes := (forall₂_of_mapM_eq_ok hrules).imp fun _ _ => RuleText.describes_of_build
  rw [← hstart] at halphabet
  exact ⟨⟨hstart, hdescribes, hpolicy, rfl⟩, halphabet⟩

theorem mem_or_length_of_used (hs : s ∈ t.usedSymbols.map Prod.fst) :
    s ∈ t.declared ∨ s.length = 1 := by
  obtain ⟨⟨_, place⟩, hused, rfl⟩ := List.mem_map.mp hs
  rcases List.mem_append.mp hused with hs | hs
  · obtain ⟨l, hl, heq⟩ := List.mem_map.mp hs
    cases heq
    exact Word.mem_or_length_of_mem_parse hl
  · obtain ⟨r, -, hs⟩ := List.mem_flatMap.mp hs
    obtain ⟨p, hp, hs⟩ := List.mem_flatMap.mp hs
    rcases List.mem_cons.mp hs with heq | hs
    · cases heq
      obtain ⟨l, hl, rfl⟩ := List.mem_map.mp hp
      exact Word.mem_or_length_of_mem_parse hl
    · obtain ⟨w, hw, hs⟩ := List.mem_flatMap.mp hs
      obtain ⟨text, -, rfl⟩ := List.mem_map.mp hw
      obtain ⟨l, hl, heq⟩ := List.mem_map.mp hs
      cases heq
      exact Word.mem_or_length_of_mem_parse hl

theorem sameTokens_of_build (h : t.build = .ok g) : g.alphabet.SameTokens t.declared := by
  obtain ⟨hdescribes, halphabet⟩ := describes_of_build h
  intro s htwo
  rw [halphabet]
  refine or_iff_left_of_imp fun hused => ?_
  rw [← Grammar.mem_usedSymbols_iff, hdescribes.start, ← usedSymbols_eq hdescribes.rules] at hused
  exact (mem_or_length_of_used hused).resolve_right (by omega)

/-- A grammar reads every text as its document is read, and so reads its axiom and its rules again
from the texts that they were built from. -/
theorem parseWord_of_build (h : t.build = .ok g) :
    (∀ text, g.parseWord text = Word.parse (.ofList t.alphabet) text) ∧
      g.parseWord t.start = g.start ∧
      List.Forall₂ (fun (text : RuleText) (r : Rule) =>
        g.parseWord text.predecessor = [r.predecessor] ∧
          (∀ w, text.successor = some w → r.successor = .fixed (g.parseWord w)) ∧
          (text.successor = none → r.successor =
            .chosen ⟨text.successors.map fun s => (g.parseWord s.word, s.weight)⟩))
        t.rules g.rules.toList := by
  have hread : ∀ text, g.parseWord text = Word.parse t.declared text :=
    Word.parse_congr (sameTokens_of_build h)
  obtain ⟨hdescribes, -⟩ := describes_of_build h
  refine ⟨hread, (hread _).trans hdescribes.start.symm, hdescribes.rules.imp fun text r hr => ?_⟩
  simp only [hread]
  cases hr with
  | fixed hl => exact ⟨hl, by rintro w ⟨⟩; rfl, nofun⟩
  | chosen hl _ => exact ⟨hl, nofun, fun _ => rfl⟩

def curveText : GrammarText where
  alphabet := ["Fl", "Fr"]
  start := "Fl X"
  rules := [{ predecessor := "Fl", successor := some "Fl+Fr" },
    { predecessor := "X", successors := [⟨"FrX", 1⟩, ⟨"", 2⟩] }]

theorem parseWord_of_build_curve :
    ∃ g, curveText.build = .ok g ∧ "X" ∈ g.alphabet ∧ "X" ∉ curveText.alphabet ∧
      g.parseWord "FrX Fl" = [.edge "Fr" .right, .plain "X", .edge "Fl" .left] ∧
      g.parseWord "Fl X" = g.start := by
  have hFl : Word.parse curveText.declared "Fl" = [.edge "Fl" .left] := by cbv
  have hX : Word.parse curveText.declared "X" = [.plain "X"] := by cbv
  have hstart : Word.parse curveText.declared "Fl X" = [.edge "Fl" .left, .plain "X"] := by cbv
  have hread : Word.parse curveText.declared "FrX Fl" =
      [.edge "Fr" .right, .plain "X", .edge "Fl" .left] := by cbv
  have hrules : curveText.rules =
      [⟨"Fl", some "Fl+Fr", []⟩, ⟨"X", none, [⟨"FrX", 1⟩, ⟨"", 2⟩]⟩] := rfl
  have hfit : ∀ r ∈ curveText.rules, r.WeightsFit := by
    rw [hrules, List.forall_mem_cons, List.forall_mem_singleton]
    exact ⟨fun _ => rfl, fun _ => rfl⟩
  have hwell : curveText.WellFormed := by
    have hweights : (∀ s ∈ [(⟨"FrX", 1⟩ : WeightedText), ⟨"", 2⟩], s.Valid) ∧
        ∃ s ∈ [(⟨"FrX", 1⟩ : WeightedText), ⟨"", 2⟩], 0 < s.weight := by
      simp only [WeightedText.Valid]
      decide +kernel
    refine ⟨?_, ?_, fun h => by cases h⟩
    · rw [hrules, List.forall_mem_cons, List.forall_mem_singleton]
      exact ⟨⟨⟨_, hFl⟩, by simp, by simp⟩, ⟨⟨_, hX⟩, by simp, fun _ => hweights⟩⟩
    · rw [hrules]
      simp [RuleText.symbols, hFl, hX, Letter.symbol]
  obtain ⟨g, hdescribes, hg⟩ := hwell.exists_describes hfit
  obtain ⟨hall, hagain, -⟩ := parseWord_of_build hg
  have hX' : Letter.plain "X" ∈ g.start := by
    rw [hdescribes.start]
    exact hstart ▸ List.mem_cons_of_mem _ List.mem_cons_self
  exact ⟨g, hg, (Grammar.closed_of_build_text hg).start _ hX', by decide, (hall _).trans hread,
    hagain⟩

end GrammarText

end LSystem
