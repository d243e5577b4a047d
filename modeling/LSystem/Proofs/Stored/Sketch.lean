import LSystem.Stored.Sketch
import LSystem.Proofs.Stored.Shape

/-! # Sketches read back

A sketch is read back from what it is written as. Where fields are left out, of the sketch itself,
of its grammar, of any rule or of its picture settings, those fields and no others take the defaults
of the record that they were left out of.
-/

namespace LSystem

open Fields (read_record read_required read_kept read_optional)

instance : Written AlphabetPolicy where
  Storable _ := True
  ofJson?_toJson {p} _ := by cases p <;> rfl

instance : Written WeightedText where
  Storable w := Storable w.weight
  ofJson?_toJson {w} h := by
    apply read_record (by simp) (by simp)
    apply read_required rfl (ofJson?_toJson trivial)
    exact read_required rfl (ofJson?_toJson h) rfl

namespace RuleText

variable {r : RuleText}

def fill (kept : String → Bool) (r : RuleText) : RuleText :=
  let d : RuleText := {}
  { predecessor := if kept "predecessor" then r.predecessor else d.predecessor
    successor := if kept "successor" then r.successor else d.successor
    successors := if kept "successors" then r.successors else d.successors }

theorem ofJson?_keep (kept : String → Bool) (h : Storable r.successors) :
    ofJson? ((toJson r).keep kept) = some (r.fill kept) := by
  apply read_kept (by simp) (by simp)
  apply read_optional rfl (ofJson?_toJson trivial)
  apply read_optional rfl (ofJson?_toJson fun _ _ => trivial)
  exact read_optional rfl (ofJson?_toJson h) rfl

end RuleText

instance : Written RuleText where
  Storable r := Storable r.successors
  ofJson?_toJson {r} h := by
    rw [← Json.keep_all (toJson r)]
    exact RuleText.ofJson?_keep (fun _ => true) h

namespace RenderSettings

variable {s : RenderSettings}

def fill (kept : String → Bool) (s : RenderSettings) : RenderSettings :=
  let d : RenderSettings := {}
  { depth := if kept "depth" then s.depth else d.depth
    seed := if kept "seed" then s.seed else d.seed
    stepLength := if kept "step_length" then s.stepLength else d.stepLength
    turnAngle := if kept "turn_angle" then s.turnAngle else d.turnAngle
    start := if kept "start" then s.start else d.start
    width := if kept "width" then s.width else d.width
    height := if kept "height" then s.height else d.height
    background := if kept "background" then s.background else d.background
    lineColor := if kept "line_color" then s.lineColor else d.lineColor
    lineWidth := if kept "line_width" then s.lineWidth else d.lineWidth
    fit := if kept "fit" then s.fit else d.fit
    margin := if kept "margin" then s.margin else d.margin }

structure Finite (s : RenderSettings) : Prop where
  stepLength : Storable s.stepLength
  turnAngle : Storable s.turnAngle
  start : Storable s.start
  margin : Storable s.margin

theorem ofJson?_keep (kept : String → Bool) (h : s.Finite) :
    ofJson? ((toJson s).keep kept) = some (s.fill kept) := by
  apply read_kept (by simp) (by simp)
  apply read_optional rfl (ofJson?_toJson trivial)
  apply read_optional rfl (ofJson?_toJson trivial)
  apply read_optional rfl (ofJson?_toJson h.stepLength)
  apply read_optional rfl (ofJson?_toJson h.turnAngle)
  apply read_optional rfl (ofJson?_toJson h.start)
  apply read_optional rfl (ofJson?_toJson trivial)
  apply read_optional rfl (ofJson?_toJson trivial)
  apply read_optional rfl (ofJson?_toJson trivial)
  apply read_optional rfl (ofJson?_toJson trivial)
  apply read_optional rfl (ofJson?_toJson trivial)
  apply read_optional rfl (ofJson?_toJson trivial)
  exact read_optional rfl (ofJson?_toJson h.margin) rfl

end RenderSettings

instance : Written RenderSettings where
  Storable s := s.Finite
  ofJson?_toJson {s} h := by
    rw [← Json.keep_all (toJson s)]
    exact RenderSettings.ofJson?_keep (fun _ => true) h

namespace GrammarText

variable {g : GrammarText} {rules : Json} {rs : List RuleText}

def fill (kept : String → Bool) (g : GrammarText) : GrammarText :=
  let d : GrammarText := {}
  { alphabet := if kept "alphabet" then g.alphabet else d.alphabet
    start := if kept "axiom" then g.start else d.start
    rules := if kept "rules" then g.rules else d.rules
    policy := if kept "policy" then g.policy else d.policy
    wordLimit := if kept "max_word_len" then g.wordLimit else d.wordLimit }

/-- What is kept of a grammar: of its own fields, and of those of each rule. -/
structure Kept where
  own : String → Bool
  rule : ℕ → String → Bool

namespace Kept

def cut (k : Kept) (v : Json) : Json :=
  (v.within "rules" (.each fun i => .keep (k.rule i))).keep k.own

def fill (k : Kept) (g : GrammarText) : GrammarText :=
  let rules := g.rules.mapIdx fun i r => r.fill (k.rule i)
  GrammarText.fill k.own { g with rules }

end Kept

def written (g : GrammarText) (rules : Json) : Json :=
  .record [("alphabet", toJson g.alphabet), ("axiom", toJson g.start), ("rules", rules),
    ("policy", toJson g.policy), ("max_word_len", toJson g.wordLimit)]

theorem ofJson?_keep (kept : String → Bool) (h : ofJson? rules = some rs) :
    ofJson? ((g.written rules).keep kept) = some (GrammarText.fill kept { g with rules := rs }) := by
  apply read_kept (by simp) (by simp)
  apply read_optional rfl (ofJson?_toJson fun _ _ => trivial)
  apply read_optional rfl (ofJson?_toJson trivial)
  apply read_optional rfl h
  apply read_optional rfl (ofJson?_toJson trivial)
  exact read_optional rfl (ofJson?_toJson fun _ _ => trivial) rfl

theorem within_rules (g : GrammarText) (f : Json → Json) :
    (toJson g).within "rules" f = g.written (f (toJson g.rules)) := by
  simp [toJson, written, Json.within, Json.record]

end GrammarText

instance : Written GrammarText where
  Storable g := Storable g.rules
  ofJson?_toJson {g} h := by
    rw [← Json.keep_all (toJson g)]
    exact GrammarText.ofJson?_keep (fun _ => true) (ofJson?_toJson h)

theorem GrammarText.Kept.ofJson?_cut {g : GrammarText} (k : Kept) (h : Storable g) :
    ofJson? (k.cut (toJson g)) = some (k.fill g) := by
  rw [cut, GrammarText.within_rules]
  apply GrammarText.ofJson?_keep
  apply ofJson?_each
  intro i r hr
  exact RuleText.ofJson?_keep (k.rule i) (h r hr)

namespace SketchText

variable {grammar render : Json} {g : GrammarText} {r : RenderSettings}

def fill (kept : String → Bool) (s : SketchText) : SketchText :=
  let d : SketchText := {}
  { grammar := if kept "grammar" then s.grammar else d.grammar
    render := if kept "render" then s.render else d.render }

structure Kept where
  own : String → Bool
  grammar : GrammarText.Kept
  render : String → Bool

namespace Kept

def cut (k : Kept) (v : Json) : Json :=
  ((v.within "grammar" k.grammar.cut).within "render" (.keep k.render)).keep k.own

def fill (k : Kept) (s : SketchText) : SketchText :=
  SketchText.fill k.own ⟨k.grammar.fill s.grammar, s.render.fill k.render⟩

end Kept

def written (grammar render : Json) : Json := .record [("grammar", grammar), ("render", render)]

theorem ofJson?_keep (kept : String → Bool) (hg : ofJson? grammar = some g)
    (hr : ofJson? render = some r) :
    ofJson? ((written grammar render).keep kept) = some (SketchText.fill kept ⟨g, r⟩) := by
  apply read_kept (by simp) (by simp)
  apply read_optional rfl hg
  exact read_optional rfl hr rfl

theorem within_both (s : SketchText) (f h : Json → Json) :
    ((toJson s).within "grammar" f).within "render" h =
      written (f (toJson s.grammar)) (h (toJson s.render)) := by
  simp [toJson, written, Json.within, Json.record]

end SketchText

instance : Written SketchText where
  Storable s := Storable s.grammar ∧ Storable s.render
  ofJson?_toJson := by
    rintro s ⟨hgrammar, hrender⟩
    rw [← Json.keep_all (toJson s)]
    exact SketchText.ofJson?_keep (fun _ => true) (ofJson?_toJson hgrammar) (ofJson?_toJson hrender)

theorem SketchText.Kept.ofJson?_cut {s : SketchText} (k : Kept) (h : Storable s) :
    ofJson? (k.cut (toJson s)) = some (k.fill s) := by
  obtain ⟨hgrammar, hrender⟩ := h
  rw [cut, SketchText.within_both]
  apply SketchText.ofJson?_keep
  · exact k.grammar.ofJson?_cut hgrammar
  · exact RenderSettings.ofJson?_keep k.render hrender

instance : Written Report where
  Storable r := Storable r.letters ∧ Storable r.segments ∧ Storable r.drawn ∧
    Storable r.unmatchedPops ∧ Storable r.openBranches
  ofJson?_toJson := by
    rintro r ⟨hletters, hsegments, hdrawn, hpops, hbranches⟩
    apply read_record (by simp) (by simp)
    apply read_required rfl (ofJson?_toJson hletters)
    apply read_required rfl (ofJson?_toJson hsegments)
    apply read_required rfl (ofJson?_toJson hdrawn)
    apply read_required rfl (ofJson?_toJson hpops)
    exact read_required rfl (ofJson?_toJson hbranches) rfl

section Documents

/-- Every value whose floats are finite is read back from what it is written as. -/
def ReadsBack (α : Type) [Stored α] [Written α] : Prop :=
  ∀ x : α, Storable x → ofJson? (toJson x) = some x

/-- Documents and the values in them are read back, and whatever is left out of a sketch, a grammar,
a rule or picture settings takes its default. -/
theorem documents_read_back :
    (ReadsBack SketchText ∧ ReadsBack GrammarText ∧ ReadsBack RuleText ∧ ReadsBack WeightedText ∧
      ReadsBack RenderSettings ∧ ReadsBack Letter ∧ ReadsBack Word ∧ ReadsBack Turtle ∧
      ReadsBack Segment ∧ ReadsBack (Transform Float32) ∧ ReadsBack Report) ∧
    (∀ (k : SketchText.Kept) (s : SketchText), Storable s →
      ofJson? (k.cut (toJson s)) = some (k.fill s)) ∧
    (∀ (k : GrammarText.Kept) (g : GrammarText), Storable g →
      ofJson? (k.cut (toJson g)) = some (k.fill g)) ∧
    (∀ (kept : String → Bool) (r : RuleText), Storable r →
      ofJson? ((toJson r).keep kept) = some (r.fill kept)) ∧
    (∀ (kept : String → Bool) (s : RenderSettings), Storable s →
      ofJson? ((toJson s).keep kept) = some (s.fill kept)) := by
  refine ⟨?_, ?_, ?_, ?_, ?_⟩
  · refine ⟨?_, ?_, ?_, ?_, ?_, ?_, ?_, ?_, ?_, ?_, ?_⟩ <;> exact fun x hx => ofJson?_toJson hx
  · intro k s hs
    exact k.ofJson?_cut hs
  · intro k g hg
    exact k.ofJson?_cut hg
  · intro kept r hr
    exact RuleText.ofJson?_keep kept hr
  · intro kept s hs
    exact RenderSettings.ofJson?_keep kept hs

def branchingText : SketchText where
  grammar := {
    alphabet := ["F", "Fl"], start := "FFl", policy := .strict, wordLimit := some 100
    rules := [⟨"F", none, [⟨"FF", 0.5⟩, ⟨"F", 1.5⟩]⟩, ⟨"Fl", some "F", []⟩] }
  render := { depth := 5, turnAngle := 25.7, start := ⟨⟨1, 2⟩, 90, false⟩ }

def branchingKept : SketchText.Kept where
  own _ := true
  grammar := ⟨(· != "policy"), fun i name => i != 0 || name != "successors"⟩
  render := (· != "start")

theorem documents_read_back_branching :
    Storable branchingText ∧ ofJson? (toJson branchingText) = some branchingText ∧
      ofJson? (branchingKept.cut (toJson branchingText)) = some {
        grammar := {
          alphabet := ["F", "Fl"], start := "FFl", wordLimit := some 100
          rules := [⟨"F", none, []⟩, ⟨"Fl", some "F", []⟩] }
        render := { depth := 5, turnAngle := 25.7 } : SketchText } := by
  have hrules : Storable branchingText.grammar.rules := by
    intro r hr
    rcases List.mem_pair.mp hr with rfl | rfl
    · intro w hw
      rcases List.mem_pair.mp hw with rfl | rfl <;> rfl
    · exact fun w hw => absurd hw List.not_mem_nil
  have hs : Storable branchingText := ⟨hrules, rfl, rfl, ⟨⟨rfl, rfl⟩, rfl⟩, rfl⟩
  exact ⟨hs, documents_read_back.1.1 _ hs, documents_read_back.2.1 branchingKept _ hs⟩

end Documents

end LSystem
