import Defeasible.Proofs.Grammar

/-! Literals, clauses and rules are read back from their texts, if their symbols may be read at all. What was read from
a text has such symbols, so its text tells it apart from all else that was read. -/

namespace Defeasible

open Text

/-! ### Literals -/

namespace Literal

variable {c : Char} {cs core arguments : List Char} {ts : List Term} {l : Literal}

structure Spelled (l : Literal) : Prop where
  predicate : isSymbol l.predicate.toList = true
  arguments : ∀ t ∈ l.arguments, isSymbol t.name.toList = true ∧ Term.named t.name = t

theorem name_named (name : String) : (Term.named name).name = name := by
  unfold Term.named
  split
  · split <;> rfl
  · rfl

theorem Arguments.spelled (applied : Arguments ts cs) :
    ∀ t ∈ ts, isSymbol t.name.toList = true ∧ Term.named t.name = t := by
  cases applied with
  | none => exact fun t ht => absurd ht List.not_mem_nil
  | some _ named _ =>
    have symbols := ((List.forall₂_and_left _ _).1 (named.imp fun name part h => ⟨h.symbol, h⟩)).1
    refine List.forall_mem_map.2 fun name hname => ?_
    rw [name_named, String.toList_ofList]
    exact ⟨symbols name hname, rfl⟩

theorem Written.spelled (written : l.Written cs) : l.Spelled := by
  obtain ⟨-, symbol, applied, -⟩ := written
  exact ⟨by rwa [String.toList_ofList], applied.spelled⟩

theorem spelled_of_parse {s : String} (parsed : parse s = .ok l) : l.Spelled := (parse_eq_ok_iff.1 parsed).spelled

theorem arguments_joinComma (spelled : ∀ t ∈ ts, isSymbol t.name.toList = true ∧ Term.named t.name = t) :
    Arguments ts (if ts.isEmpty then [] else '(' :: joinComma (ts.map fun t => t.name.toList) ++ [')']) := by
  cases ts with
  | nil => exact .none
  | cons t ts =>
    obtain ⟨parts, joined, padded⟩ := joinComma_eq_intercalate ((t :: ts).map fun t => t.name.toList)
    have symbols : ∀ name ∈ (t :: ts).map fun t => t.name.toList, isSymbol name = true :=
      List.forall_mem_map.2 fun t ht => (spelled t ht).1
    have named : List.Forall₂ Named ((t :: ts).map fun t => t.name.toList) parts :=
      ((List.forall₂_and_left _ _).2 ⟨symbols, padded⟩).imp fun _ _ h => ⟨h.1, h.2⟩
    have terms :
        ((t :: ts).map fun t => t.name.toList).map (fun name => Term.named (String.ofList name)) = t :: ts := by
      rw [List.map_map]
      refine (List.map_congr_left fun t ht => ?_).trans (List.map_id _)
      rw [Function.comp_apply, String.ofList_toList, (spelled t ht).2]
      rfl
    have applied := Arguments.some (List.map_eq_nil_iff.not.2 (List.cons_ne_nil t ts)) named blank_nil
    rw [terms, ← joined] at applied
    exact applied

theorem marks_polarity (polarity : Bool) : Marks (if polarity then 0 else 1) (if polarity then [] else ['!']) := by
  cases polarity with
  | true => exact .none
  | false => exact .mark rfl blank_nil .none

theorem Spelled.written (spelled : l.Spelled) : l.Written l.chars := by
  obtain ⟨predicate, ts, polarity⟩ := l
  have parity : ((if polarity then 0 else 1) % 2 == 0) = polarity := by cases polarity <;> rfl
  have written := Written.intro (marks_polarity polarity) spelled.predicate (arguments_joinComma spelled.arguments)
    (padded_self _)
  rw [String.ofList_toList, parity, ← List.append_assoc] at written
  exact written

theorem Spelled.parse_text (spelled : l.Spelled) : parse l.text = .ok l :=
  parse_eq_ok_iff.2 (by rw [text, String.toList_ofList]; exact spelled.written)

theorem Written.of_padded (written : l.Written core) (padded : Padded core cs) : l.Written cs := by
  obtain ⟨marked, symbol, applied, padded'⟩ := written
  obtain ⟨pre, post, before, after, rfl⟩ := padded
  exact ⟨marked, symbol, applied, padded'.pad before after⟩

theorem ne_arrow_of_isBlank (blank : isBlank c = true) : c ≠ '>' := ne_of_isBlank blank (by decide)

theorem ne_arrow_of_isSymbolChar (symbol : isSymbolChar c = true) : c ≠ '>' := ne_of_isSymbolChar symbol (by decide)

theorem Arguments.ne_arrow (applied : Arguments ts cs) : ∀ c ∈ cs, c ≠ '>' := by
  cases applied with
  | none => exact List.forall_mem_nil _
  | some _ named blank =>
    refine List.forall_mem_append.2 ⟨fun c hc => ne_arrow_of_isBlank (blank c hc), ?_⟩
    refine List.forall_mem_cons.2 ⟨by decide, List.forall_mem_append.2 ⟨fun c hc => ?_, ?_⟩⟩
    · rcases mem_intercalate hc with rfl | ⟨part, hpart, mem⟩
      · decide
      · exact (mem_of_named named hpart mem).elim ne_arrow_of_isBlank ne_arrow_of_isSymbolChar
    · exact List.forall_mem_singleton.2 (by decide)

theorem Written.ne_arrow (written : l.Written cs) : ∀ c ∈ cs, c ≠ '>' := by
  obtain ⟨marked, symbol, applied, padded⟩ := written
  intro c hc
  rcases padded.mem hc with blank | hc
  · exact ne_arrow_of_isBlank blank
  rcases List.mem_append.1 hc with hc | hc
  · rcases Bool.or_eq_true_iff.1 (marked.all c hc) with mark | blank
    · rcases isMark_iff.1 mark with rfl | rfl <;> decide
    · exact ne_arrow_of_isBlank blank
  rcases List.mem_append.1 hc with hc | hc
  · exact ne_arrow_of_isSymbolChar ((isSymbol_iff.1 symbol).2 c hc)
  · exact applied.ne_arrow c hc

end Literal

/-! ### Clauses -/

namespace Clause

variable {c : Clause} {cs : List Char}

def Spelled (c : Clause) : Prop := ∀ l ∈ c, l.Spelled

theorem ofList_toList (c : Clause) : ofList c.toList = c :=
  congrArg Clause.mk (OrdSet.ext fun _ => OrdSet.mem_ofList)

theorem Written.spelled (written : c.Written cs) : c.Spelled := by
  cases written with
  | blank _ => exact fun l hl => absurd hl (OrdSet.not_mem_empty l)
  | literals _ written =>
    have spelled := ((List.forall₂_and_left _ _).1 (written.imp fun l part h => ⟨h.spelled, h⟩)).1
    exact fun l hl => spelled l (OrdSet.mem_ofList.1 hl)

theorem spelled_of_parse {s : String} (parsed : parse s = .ok c) : c.Spelled := (parse_eq_ok_iff.1 parsed).spelled

theorem Spelled.written (spelled : c.Spelled) : c.Written c.chars := by
  cases literals : c.toList with
  | nil =>
    rw [← ofList_toList c, literals]
    exact .blank blank_nil
  | cons l ls =>
    obtain ⟨parts, joined, padded⟩ := joinComma_eq_intercalate (c.toList.map Literal.chars)
    have ne_nil : c.toList ≠ [] := literals ▸ List.cons_ne_nil l ls
    have padded := (List.forall₂_and_left _ _).2 ⟨spelled, List.forall₂_map_left_iff.1 padded⟩
    have written := Written.literals ne_nil (padded.imp fun l part h => h.1.written.of_padded h.2)
    rwa [ofList_toList, ← joined] at written

theorem Spelled.parse_text (spelled : c.Spelled) : parse c.text = .ok c :=
  parse_eq_ok_iff.2 (by rw [text, String.toList_ofList]; exact spelled.written)

theorem Written.of_padded {core : List Char} (written : c.Written core) (padded : Padded core cs) : c.Written cs := by
  obtain ⟨pre, post, before, after, rfl⟩ := padded
  cases written with
  | blank blank => exact .blank ((before.append blank).append after)
  | @literals ls parts ne_nil written =>
    have some_part : parts ≠ [] := by
      rintro rfl
      exact ne_nil (List.forall₂_nil_right_iff.1 written)
    obtain ⟨parts, joined, written⟩ :=
      intercalate_pad written some_part (fun _ _ _ => Literal.Written.of_padded) before after
    rw [joined]
    exact .literals ne_nil written

theorem Written.ne_arrow (written : c.Written cs) : ∀ d ∈ cs, d ≠ '>' := by
  cases written with
  | blank blank => exact fun d hd => Literal.ne_arrow_of_isBlank (blank d hd)
  | literals _ written =>
    intro d hd
    rcases mem_intercalate hd with rfl | ⟨part, hpart, mem⟩
    · decide
    · have plain := ((List.forall₂_and_left _ _).1 (written.flip.imp fun part l h => ⟨h.ne_arrow, h⟩)).1
      exact plain part hpart d mem

end Clause

/-! ### Rules -/

namespace DefaultRule

variable {r r' : DefaultRule} {cs : List Char}

structure Spelled (r : DefaultRule) : Prop where
  antecedent : r.antecedent.Spelled
  consequent : r.consequent.Spelled
  ne_empty : r.consequent.isEmpty = false

theorem Written.spelled (written : r.Written cs) : r.Spelled := by
  obtain ⟨-, antecedent, consequent, visible⟩ := written
  exact ⟨antecedent.spelled, consequent.spelled, Bool.eq_false_iff.2 (consequent.isEmpty_iff.not.2 visible)⟩

theorem spelled_of_parse {s : String} (parsed : parse s = .ok r) : r.Spelled := (parse_eq_ok_iff.1 parsed).spelled

theorem Spelled.written (spelled : r.Spelled) : r.Written r.chars := by
  have antecedent : r.antecedent.Written (if r.antecedent.isEmpty then [] else r.antecedent.chars ++ [' ']) := by
    split
    · next none =>
      have empty : r.antecedent = .empty :=
        congrArg Clause.mk (OrdSet.toList_injective (List.isEmpty_iff.1 none))
      rw [empty]
      exact .blank blank_nil
    · exact spelled.antecedent.written.of_padded ⟨[], [' '], blank_nil, blank_space, rfl⟩
  have consequent : r.consequent.Written (' ' :: r.consequent.chars) :=
    spelled.consequent.written.of_padded ⟨[' '], [], blank_space, blank_nil, (List.append_nil _).symm⟩
  refine .intro (firstArrow_of_forall antecedent.ne_arrow) antecedent consequent (consequent.isEmpty_iff.not.1 ?_)
  rw [spelled.ne_empty]
  exact Bool.false_ne_true

theorem Spelled.parse_text (spelled : r.Spelled) : parse r.text = .ok r :=
  parse_eq_ok_iff.2 (by rw [text, String.toList_ofList]; exact spelled.written)

end DefaultRule

/-! ### Reading back -/

/-- How values, their texts and the values that are read from texts belong together: a value of a form is read from its
text, what is read is of the form, its text is settled after one reading, and nothing else that is read has its text. -/
structure Legible {α : Type} (parse : String → Except ParseError α) (text : α → String) (form : α → Prop) :
    Prop where
  parse_text : ∀ a, form a → parse (text a) = .ok a
  form_of_parse : ∀ s a, parse s = .ok a → form a
  settled : ∀ s a, parse s = .ok a → text <$> parse (text a) = .ok (text a)
  text_injective : ∀ a b, form a → form b → text a = text b → a = b

namespace Legible

variable {α : Type} {parse : String → Except ParseError α} {text : α → String} {form : α → Prop}

theorem of_parse_text (parse_text : ∀ a, form a → parse (text a) = .ok a)
    (form_of_parse : ∀ s a, parse s = .ok a → form a) : Legible parse text form where
  parse_text := parse_text
  form_of_parse := form_of_parse
  settled s a parsed := by
    rw [parse_text a (form_of_parse s a parsed)]
    rfl
  text_injective a b ha hb same := by
    have parsed := parse_text a ha
    rw [same, parse_text b hb] at parsed
    exact (Except.ok.inj parsed).symm

end Legible

theorem Literal.legible : Legible Literal.parse Literal.text Literal.Spelled :=
  .of_parse_text (fun _ => Spelled.parse_text) fun _ _ => spelled_of_parse

theorem Clause.legible : Legible Clause.parse Clause.text Clause.Spelled :=
  .of_parse_text (fun _ => Spelled.parse_text) fun _ _ => spelled_of_parse

theorem DefaultRule.legible : Legible DefaultRule.parse DefaultRule.text DefaultRule.Spelled :=
  .of_parse_text (fun _ => Spelled.parse_text) fun _ _ => spelled_of_parse

/-- Literals, clauses and default rules are read back from their texts, and told apart by them. -/
theorem round_trip : Legible Literal.parse Literal.text Literal.Spelled ∧
    Legible Clause.parse Clause.text Clause.Spelled ∧
    Legible DefaultRule.parse DefaultRule.text DefaultRule.Spelled :=
  ⟨Literal.legible, Clause.legible, DefaultRule.legible⟩

/-- A text that is not settled. -/
example : DefaultRule.text <$> DefaultRule.parse " b ,~ a->!!c" = .ok "!a, b -> c" := by decide +kernel

end Defeasible
