import Defeasible.Dataset
import Defeasible.Proofs.RoundTrip
import Defeasible.Proofs.Text.Lines
import Mathlib.Data.List.ReduceOption

/-! Datasets are read line by line: what a line adds to the rules depends on that line alone. The text of a rule has no
newline and no blanks around it, and its arrow is the only one, so that a dataset of such lines is read as the rules
that it was made of. -/

namespace Defeasible

open Text

/-! ### Texts of rules -/

namespace Literal

variable {cs : List Char} {l : Literal}

theorem newline_not_mem_of_isSymbol (symbol : isSymbol cs = true) : '\n' ∉ cs := fun mem =>
  ne_of_isSymbolChar ((isSymbol_iff.1 symbol).2 '\n' mem) (by decide) rfl

theorem Spelled.tight (spelled : l.Spelled) : Tight l.chars := by
  rw [chars, List.append_assoc]
  exact tight_core (marks_polarity l.polarity) spelled.predicate (arguments_joinComma spelled.arguments)

theorem newline_not_mem_joinComma {texts : List (List Char)} (plain : ∀ text ∈ texts, '\n' ∉ text) :
    '\n' ∉ joinComma texts := by
  intro mem
  rcases mem_joinComma mem with comma | space | ⟨text, among, mem⟩
  · exact absurd comma (by decide)
  · exact absurd space (by decide)
  · exact plain text among mem

theorem Spelled.newline_not_mem (spelled : l.Spelled) : '\n' ∉ l.chars := by
  have names : '\n' ∉ joinComma (l.arguments.map fun t => t.name.toList) :=
    newline_not_mem_joinComma <| List.forall_mem_map.2 fun t ht =>
      newline_not_mem_of_isSymbol (spelled.arguments t ht).1
  rw [chars, List.mem_append, List.mem_append, not_or, not_or]
  refine ⟨⟨?mark, newline_not_mem_of_isSymbol spelled.predicate⟩, ?arguments⟩
  case mark => split <;> decide
  case arguments =>
    split
    · exact List.not_mem_nil
    · rw [List.mem_append, List.mem_cons, not_or, not_or]
      exact ⟨⟨by decide, names⟩, by decide⟩

end Literal

namespace Clause

variable {c : Clause}

theorem Spelled.tight (spelled : c.Spelled) (ne_empty : c.isEmpty = false) : Tight c.chars := by
  refine tight_joinComma (List.map_eq_nil_iff.not.2 ?_) (List.forall_mem_map.2 fun l hl => (spelled l hl).tight)
  exact List.isEmpty_eq_false_iff.1 ne_empty

theorem Spelled.newline_not_mem (spelled : c.Spelled) : '\n' ∉ c.chars :=
  Literal.newline_not_mem_joinComma (List.forall_mem_map.2 fun l hl => (spelled l hl).newline_not_mem)

end Clause

namespace DefaultRule

variable {r : DefaultRule} {cs : List Char}

theorem Written.countArrows (written : r.Written cs) : countArrows cs = 1 := by
  obtain ⟨cut, antecedent, consequent, -⟩ := written
  rw [cut.cut]
  exact countArrows_eq_one antecedent.ne_arrow consequent.ne_arrow

theorem Spelled.tight (spelled : r.Spelled) : Tight r.chars := by
  have consequent := spelled.consequent.tight spelled.ne_empty
  rw [chars]
  split
  · have dash : Tight ['-'] :=
      tight_of_forall (List.cons_ne_nil _ _) (List.forall_mem_singleton.2 (by decide))
    exact dash.append ['>', ' '] consequent
  · next some_literal =>
    have antecedent := spelled.antecedent.tight (Bool.eq_false_iff.2 some_literal)
    rw [List.append_assoc]
    exact antecedent.append [' ', '-', '>', ' '] consequent

theorem Spelled.newline_not_mem (spelled : r.Spelled) : '\n' ∉ r.chars := by
  rw [chars, List.mem_append, List.mem_cons, List.mem_cons, List.mem_cons, not_or]
  refine ⟨?antecedent, ?consequent⟩
  case antecedent =>
    split
    · exact List.not_mem_nil
    · rw [List.mem_append, not_or]
      exact ⟨spelled.antecedent.newline_not_mem, by decide⟩
  case consequent =>
    rintro (dash | tip | space | mem)
    · exact absurd dash (by decide)
    · exact absurd tip (by decide)
    · exact absurd space (by decide)
    · exact spelled.consequent.newline_not_mem mem

end DefaultRule

namespace Dataset

variable {r : DefaultRule} {rules : List DefaultRule} {line cs : List Char}

/-! ### Lines -/

structure LineOf (r : DefaultRule) (line : List Char) : Prop where
  one_arrow : ∃! cut : List Char × List Char, trim line = cut.1 ++ '-' :: '>' :: cut.2
  parsed : DefaultRule.parse (String.ofList (trim line)) = .ok r

theorem toOption_eq_some_iff {ε α : Type} {outcome : Except ε α} {a : α} :
    outcome.toOption = some a ↔ outcome = .ok a := by
  cases outcome with
  | error e => exact iff_of_false (Option.some_ne_none a).symm nofun
  | ok b => exact Option.some_inj.trans (Except.ok.injEq b a).symm.to_iff

theorem ruleOf?_eq_some_iff : ruleOf? line = some r ↔ LineOf r line := by
  unfold ruleOf?
  dsimp only
  rw [Option.ite_none_right_eq_some, toOption_eq_some_iff, countArrows_eq_one_iff]
  exact ⟨fun ⟨one, parsed⟩ => ⟨one, parsed⟩, fun rule => ⟨rule.one_arrow, rule.parsed⟩⟩

theorem lineOf_chars (spelled : r.Spelled) : LineOf r r.chars := by
  have whole : trim r.chars = r.chars := (padded_self r.chars).trim_eq spelled.tight
  refine ⟨?_, ?_⟩
  · rw [whole]
    exact countArrows_eq_one_iff.1 spelled.written.countArrows
  · rw [whole]
    exact spelled.parse_text

theorem ruleOf?_newline (line : List Char) : ruleOf? (line ++ ['\n']) = ruleOf? line := by
  have blank : Blank ['\n'] := List.forall_mem_singleton.2 (by decide)
  unfold ruleOf?
  rw [trim_append blank]

/-! ### Reading -/

theorem readLines_encode (count : Nat) (cs : List Char) (lines : List Bytes) :
    readLines count (encode (String.ofList cs) :: lines) =
      ((ruleOf? cs).toList ++ ·) <$> readLines (count + 1) lines := by
  rw [readLines, decode_encode, String.toList_ofList]
  dsimp only
  cases ruleOf? cs <;> cases readLines (count + 1) lines <;> rfl

theorem readLines_text (cs : List Char) (count : Nat) :
    readLines count (byteLines (encode (String.ofList cs))) = .ok ((cs.splitOn '\n').filterMap ruleOf?) := by
  induction cs using line_induction generalizing count with
  | last line plain =>
    rw [List.splitOn_eq_singleton plain]
    by_cases none : line = []
    · rw [none]
      rfl
    · rw [byteLines_of_not_mem (newline_not_mem_encode plain) (encode_eq_nil.not.2 none), readLines_encode]
      cases rule : ruleOf? line <;> simp [readLines, rule]
  | next line rest plain ih =>
    have ended : encode (String.ofList line) ++ [newline] = encode (String.ofList (line ++ ['\n'])) :=
      (encode_append_newline line []).symm
    rw [encode_append_newline, byteLines_append (newline_not_mem_encode plain), ended, readLines_encode,
      ruleOf?_newline, ih, List.splitOn_append_cons_self, List.splitOn_eq_singleton plain]
    cases rule : ruleOf? line <;> simp [rule]

def Reads (text : String) (rules : List DefaultRule) : Prop := read (encode text) = .ok rules

theorem reads_iff {text : String} : Reads text rules ↔ (text.toList.splitOn '\n').filterMap ruleOf? = rules := by
  have whole : read (encode text) = .ok ((text.toList.splitOn '\n').filterMap ruleOf?) := by
    have lines := readLines_text text.toList 0
    rwa [String.ofList_toList] at lines
  rw [Reads, whole, Except.ok.injEq]

theorem Reads.append {a b : String} {before after : List DefaultRule} (first : Reads a before)
    (second : Reads b after) : Reads (a ++ "\n" ++ b) (before ++ after) := by
  obtain rfl := reads_iff.1 first
  obtain rfl := reads_iff.1 second
  have whole : (a ++ "\n" ++ b).toList = a.toList ++ '\n' :: b.toList := by
    rw [String.toList_append, String.toList_append, List.append_assoc]
    rfl
  rw [reads_iff, whole, List.splitOn_append_cons_self, List.filterMap_append]

/-! ### Datasets of rules -/

def written (rules : List DefaultRule) : String := String.join (rules.map fun r => r.text ++ "\n")

section Spelled

variable (spelled : ∀ r ∈ rules, r.Spelled)

include spelled

theorem filterMap_chars : (rules.map DefaultRule.chars).filterMap ruleOf? = rules := by
  rw [List.filterMap_map]
  calc rules.filterMap (ruleOf? ∘ DefaultRule.chars) = rules.filterMap some :=
        List.filterMap_congr fun r hr => ruleOf?_eq_some_iff.2 (lineOf_chars (spelled r hr))
    _ = rules := List.filterMap_some

theorem newline_not_mem_chars : ∀ line ∈ rules.map DefaultRule.chars, '\n' ∉ line :=
  List.forall_mem_map.2 fun r hr => (spelled r hr).newline_not_mem

theorem reads_written : Reads (written rules) rules := by
  have lines : (written rules).toList = (rules.map DefaultRule.chars).flatMap (· ++ ['\n']) ++ [] := by
    rw [written, String.toList_join, List.flatMap_map, List.flatMap_map, List.append_nil]
    refine List.flatMap_congr fun r _ => ?_
    rw [String.toList_append, DefaultRule.text, String.toList_ofList]
    rfl
  have nothing : ([[]] : List (List Char)).filterMap ruleOf? = [] := rfl
  rw [reads_iff, lines, splitOn_flatMap (newline_not_mem_chars spelled), List.splitOn_nil, List.filterMap_append,
    filterMap_chars spelled, nothing, List.append_nil]

theorem reads_intercalate : Reads ("\n".intercalate (rules.map DefaultRule.text)) rules := by
  have lines : ("\n".intercalate (rules.map DefaultRule.text)).toList =
      ['\n'].intercalate (rules.map DefaultRule.chars) := by
    rw [String.toList_intercalate, List.map_map]
    refine congrArg (['\n'].intercalate ·) (List.map_congr_left fun r _ => ?_)
    exact String.toList_ofList
  rw [reads_iff, lines]
  by_cases none : rules = []
  · rw [none]
    rfl
  · rw [List.splitOn_intercalate '\n' (newline_not_mem_chars spelled) (List.map_eq_nil_iff.not.2 none),
      filterMap_chars spelled]

end Spelled

/-! ### Line by line -/

/-- Rules that were read from texts are read back from a dataset of their texts, in order. Every text is read, two
texts with a newline between them as the rules of both, each line for the rule whose line it is, if any, and so lines
of no rule may be left out. -/
theorem reads_line_by_line (parsed : ∀ r ∈ rules, ∃ s, DefaultRule.parse s = .ok r) (a b : String) :
    (Reads (written rules) rules ∧ Reads ("\n".intercalate (rules.map DefaultRule.text)) rules) ∧
    (∃ before after, Reads a before ∧ Reads b after ∧ Reads (a ++ "\n" ++ b) (before ++ after)) ∧
    (∃ found, List.Forall₂ (fun line rule? => ∀ r, rule? = some r ↔ LineOf r line) (a.toList.splitOn '\n') found ∧
      Reads a found.reduceOption) ∧
    ∀ line : String, '\n' ∉ line.toList → (∀ r, ¬ LineOf r line.toList) →
      read (encode (a ++ "\n" ++ line ++ "\n" ++ b)) = read (encode (a ++ "\n" ++ b)) := by
  have spelled : ∀ r ∈ rules, r.Spelled := fun r hr =>
    let ⟨_, parsed⟩ := parsed r hr
    DefaultRule.spelled_of_parse parsed
  have reads_some (text : String) : Reads text ((text.toList.splitOn '\n').filterMap ruleOf?) := reads_iff.2 rfl
  refine ⟨⟨reads_written spelled, reads_intercalate spelled⟩, ?append, ?lines, ?malformed⟩
  case append => exact ⟨_, _, reads_some a, reads_some b, (reads_some a).append (reads_some b)⟩
  case lines =>
    refine ⟨(a.toList.splitOn '\n').map ruleOf?, ?_, ?_⟩
    · exact List.forall₂_map_right_iff.2 (List.forall₂_same.2 fun line _ r => ruleOf?_eq_some_iff)
    · rw [List.reduceOption, List.filterMap_map]
      exact reads_some a
  case malformed =>
    intro line plain malformed
    have nothing : Reads line [] := by
      have no_rule : ruleOf? line.toList = none :=
        Option.eq_none_iff_forall_ne_some.2 fun r rule => malformed r (ruleOf?_eq_some_iff.1 rule)
      rw [reads_iff, List.splitOn_eq_singleton plain, List.filterMap_cons, no_rule]
      rfl
    have long := ((reads_some a).append nothing).append (reads_some b)
    have short := (reads_some a).append (reads_some b)
    rw [List.append_nil] at long
    exact long.trans short.symm

theorem reads_line_by_line_mixed :
    let r : DefaultRule := ⟨.ofList [{ predicate := "y" }, { predicate := "x-" }], .unit ⟨"z", [], false⟩⟩
    DefaultRule.parse " y ,x- -> ~z" = .ok r ∧ Reads "x-, y -> !z\n" [r] ∧ (∀ r, ¬ LineOf r "a -> b -> c".toList) ∧
      read (encode ("q ->" ++ "\n" ++ "a -> b -> c" ++ "\n" ++ "x-, y -> !z")) =
        read (encode ("q ->" ++ "\n" ++ "x-, y -> !z")) := by
  intro r
  have parsed : DefaultRule.parse " y ,x- -> ~z" = .ok r := by decide +kernel
  have malformed : ∀ r, ¬ LineOf r "a -> b -> c".toList := fun r rule => by
    have none : ruleOf? "a -> b -> c".toList = none := by decide +kernel
    rw [ruleOf?_eq_some_iff.2 rule] at none
    cases none
  have text : written [r] = "x-, y -> !z\n" := by decide +kernel
  have each : ∀ r' ∈ [r], ∃ s, DefaultRule.parse s = .ok r' := List.forall_mem_singleton.2 ⟨_, parsed⟩
  obtain ⟨⟨whole, -⟩, -, -, isolated⟩ := reads_line_by_line each "q ->" "x-, y -> !z"
  rw [text] at whole
  exact ⟨parsed, whole, malformed, isolated "a -> b -> c" (by decide) malformed⟩

end Dataset

end Defeasible
