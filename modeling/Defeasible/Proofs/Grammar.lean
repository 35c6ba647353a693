import Defeasible.DefaultRule
import Defeasible.Proofs.OrdSet
import Defeasible.Proofs.Text.Cutting

/-! The grammar of literals, clauses and default rules. The parsers accept just the texts that it derives, and read
from them what it says. -/

namespace Defeasible

open Text

theorem mapM_eq_some_iff {α β : Type} {f : α → Option β} {as : List α} {bs : List β} :
    as.mapM f = some bs ↔ List.Forall₂ (fun a b => f a = some b) as bs := by
  induction as generalizing bs with
  | nil => simp [eq_comm]
  | cons a as ih =>
    rw [List.mapM_cons, List.forall₂_cons_left_iff]
    simp only [bind, Option.bind_eq_some_iff, ih, pure, Option.some.injEq]
    constructor
    · rintro ⟨b, first, bs, rest, rfl⟩
      exact ⟨b, bs, first, rest, rfl⟩
    · rintro ⟨b, bs, first, rest, rfl⟩
      exact ⟨b, first, bs, rest, rfl⟩

theorem mapM_eq_ok_iff {α β ε : Type} {f : α → Except ε β} {as : List α} {bs : List β} :
    as.mapM f = .ok bs ↔ List.Forall₂ (fun a b => f a = .ok b) as bs := by
  induction as generalizing bs with
  | nil => simp [pure, Except.pure, eq_comm]
  | cons a as ih =>
    rw [List.mapM_cons, List.forall₂_cons_left_iff]
    simp only [← ih]
    cases first : f a with
    | error e => simp [bind, Except.bind]
    | ok b =>
      cases rest : as.mapM f with
      | error e => simp [bind, Except.bind]
      | ok bs => simp [bind, Except.bind, pure, Except.pure, eq_comm]

/-! ### Literals -/

namespace Literal

variable {c : Char} {n : Nat} {cs predicate arguments : List Char} {ts : List Term} {l : Literal} {polarity : Bool}

theorem isBlank_of_isSymbolChar (symbol : isSymbolChar c = true) : isBlank c = false := by
  simp only [isSymbolChar, Bool.or_eq_true, beq_iff_eq] at symbol
  rcases symbol with ((((((symbol | rfl) | rfl) | rfl) | rfl) | rfl) | rfl) | rfl
  · exact isBlank_of_isAlphanumeric symbol
  all_goals decide

theorem ne_of_isSymbolChar {d : Char} (symbol : isSymbolChar c = true) (other : isSymbolChar d = false) :
    c ≠ d := by
  rintro rfl
  rw [other] at symbol
  cases symbol

theorem plain_of_isSymbolChar (symbol : isSymbolChar c = true) : c ≠ '(' ∧ c ≠ ')' ∧ c ≠ ',' :=
  ⟨ne_of_isSymbolChar symbol (by decide), ne_of_isSymbolChar symbol (by decide),
    ne_of_isSymbolChar symbol (by decide)⟩

theorem isSymbol_iff : isSymbol cs = true ↔ cs ≠ [] ∧ ∀ c ∈ cs, isSymbolChar c = true := by
  rw [isSymbol, Bool.and_eq_true, Bool.not_eq_true', List.isEmpty_eq_false_iff, List.all_eq_true]

theorem tight_of_isSymbol (symbol : isSymbol cs = true) : Tight cs := by
  obtain ⟨ne_nil, symbols⟩ := isSymbol_iff.1 symbol
  exact tight_of_forall ne_nil fun c hc => isBlank_of_isSymbolChar (symbols c hc)

theorem isMark_iff : isMark c = true ↔ c = '!' ∨ c = '~' := by
  rw [isMark, Bool.or_eq_true, beq_iff_eq, beq_iff_eq]

theorem isBlank_of_isMark (mark : isMark c = true) : isBlank c = false := by
  rcases isMark_iff.1 mark with rfl | rfl <;> decide

inductive Marks : Nat → List Char → Prop
  | none : Marks 0 []
  | mark {n : Nat} {c : Char} {blanks rest : List Char} (mark : isMark c = true) (blank : Blank blanks)
      (marks : Marks n rest) : Marks (n + 1) (c :: (blanks ++ rest))

structure Named (name part : List Char) : Prop where
  symbol : isSymbol name = true
  padded : Padded name part

/-- How terms are written: as no text if there are none, or else between parentheses, as symbols with commas between
them. There may be blanks around the symbols and before the parentheses. -/
inductive Arguments : List Term → List Char → Prop
  | none : Arguments [] []
  | some {names parts : List (List Char)} {blanks : List Char} (ne_nil : names ≠ [])
      (named : List.Forall₂ Named names parts) (blank : Blank blanks) :
      Arguments (names.map fun name => Term.named (String.ofList name))
        (blanks ++ '(' :: ([','].intercalate parts ++ [')']))

/-- How a literal is written: as marks, its predicate and its arguments, with blanks around them. It is negative if the
number of marks is odd. -/
inductive Written : Literal → List Char → Prop
  | intro {n : Nat} {marks predicate arguments cs : List Char} {ts : List Term} (marked : Marks n marks)
      (symbol : isSymbol predicate = true) (applied : Arguments ts arguments)
      (padded : Padded (marks ++ (predicate ++ arguments)) cs) :
      Written ⟨String.ofList predicate, ts, n % 2 == 0⟩ cs

/-! #### Marks -/

namespace Marks

theorem all (marks : Marks n cs) : ∀ c ∈ cs, (isMark c || isBlank c) = true := by
  induction marks with
  | none => exact List.forall_mem_nil _
  | mark mark blank _ ih =>
    refine List.forall_mem_cons.2 ⟨by rw [mark, Bool.true_or], List.forall_mem_append.2 ⟨fun c hc => ?_, ih⟩⟩
    rw [blank c hc, Bool.or_true]

theorem countP (marks : Marks n cs) : cs.countP isMark = n := by
  induction marks with
  | none => rfl
  | mark mark blank _ ih =>
    have none : List.countP isMark _ = 0 := List.countP_eq_zero.2 fun c hc marked =>
      Bool.false_ne_true ((isBlank_of_isMark marked).symm.trans (blank c hc))
    rw [List.countP_cons_of_pos mark, List.countP_append, none, Nat.zero_add, ih]

theorem exists_of_all (all : ∀ c ∈ cs, (isMark c || isBlank c) = true) :
    ∃ blanks rest, Blank blanks ∧ Marks (cs.countP isMark) rest ∧ cs = blanks ++ rest := by
  induction cs with
  | nil => exact ⟨[], [], blank_nil, .none, rfl⟩
  | cons c cs ih =>
    obtain ⟨first, all⟩ := List.forall_mem_cons.1 all
    obtain ⟨blanks, rest, blank, marks, rfl⟩ := ih all
    by_cases mark : isMark c = true
    · rw [List.countP_cons_of_pos mark]
      exact ⟨[], _, blank_nil, .mark mark blank marks, rfl⟩
    · rw [List.countP_cons_of_neg mark]
      have blank_first : isBlank c = true := (Bool.or_eq_true_iff.1 first).resolve_left mark
      exact ⟨c :: blanks, rest, List.forall_mem_cons.2 ⟨blank_first, blank⟩, marks, rfl⟩

end Marks

/-! #### Arguments -/

section Names

variable {names parts : List (List Char)}

theorem mem_of_named (named : List.Forall₂ Named names parts) {part : List Char} (hpart : part ∈ parts)
    (mem : c ∈ part) : isBlank c = true ∨ isSymbolChar c = true := by
  induction named with
  | nil => cases hpart
  | cons first _ ih =>
    rcases List.mem_cons.1 hpart with rfl | hpart
    · exact (first.padded.mem mem).imp_right ((isSymbol_iff.1 first.symbol).2 c)
    · exact ih hpart

theorem plain_of_named (named : List.Forall₂ Named names parts) {part : List Char} (hpart : part ∈ parts)
    (mem : c ∈ part) : c ≠ '(' ∧ c ≠ ')' ∧ c ≠ ',' :=
  (mem_of_named named hpart mem).elim plain_of_isBlank plain_of_isSymbolChar

theorem ne_parenthesis_of_named (named : List.Forall₂ Named names parts) (mem : c ∈ [','].intercalate parts) :
    c ≠ '(' ∧ c ≠ ')' := by
  rcases mem_intercalate mem with rfl | ⟨part, hpart, mem⟩
  · decide
  obtain ⟨not_open, not_close, -⟩ := plain_of_named named hpart mem
  exact ⟨not_open, not_close⟩

theorem exists_names (read : List.Forall₂ (fun part t =>
      (if isSymbol (trim part) then some (Term.named (String.ofList (trim part))) else none) = some t) parts ts) :
    ∃ names, List.Forall₂ Named names parts ∧ ts = names.map fun name => Term.named (String.ofList name) := by
  induction read with
  | nil => exact ⟨[], .nil, rfl⟩
  | @cons part t parts ts first _ ih =>
    obtain ⟨names, named, rfl⟩ := ih
    split at first
    · next symbol =>
      obtain rfl := Option.some.inj first
      exact ⟨trim part :: names, .cons ⟨symbol, padded_trim part⟩ named, rfl⟩
    · cases first

end Names

theorem parseArguments_eq_some_iff : parseArguments cs = some ts ↔
    ∃ names parts, names ≠ [] ∧ List.Forall₂ Named names parts ∧ cs = [','].intercalate parts ∧
      ts = names.map fun name => Term.named (String.ofList name) := by
  rw [parseArguments, splitAt_eq_splitOn, mapM_eq_some_iff]
  constructor
  · intro read
    obtain ⟨names, named, terms⟩ := exists_names read
    refine ⟨names, cs.splitOn ',', ?_, named, (List.intercalate_splitOn ',').symm, terms⟩
    rintro rfl
    exact List.splitOn_ne_nil ',' cs (List.forall₂_nil_left_iff.1 named)
  · rintro ⟨names, parts, ne_nil, named, rfl, rfl⟩
    have no_comma : ∀ part ∈ parts, ',' ∉ part := fun part hpart mem =>
      (plain_of_named named hpart mem).2.2 rfl
    have some_part : parts ≠ [] := by
      rintro rfl
      exact ne_nil (List.forall₂_nil_right_iff.1 named)
    rw [List.splitOn_intercalate ',' no_comma some_part, List.forall₂_map_right_iff]
    refine named.flip.imp fun part name h => ?_
    dsimp only
    rw [h.padded.trim_eq (tight_of_isSymbol h.symbol), if_pos h.symbol]

/-! #### Atoms -/

theorem ne_parenthesis_of_isSymbol (symbol : isSymbol cs = true) : ∀ c ∈ cs, (c != '(') = true := fun c hc =>
  bne_iff_ne.2 (ne_of_isSymbolChar ((isSymbol_iff.1 symbol).2 c hc) (by decide))

theorem parseAtom_of_written {s : String} (symbol : isSymbol predicate = true) (applied : Arguments ts arguments) :
    parseAtom s polarity (predicate ++ arguments) = .ok ⟨String.ofList predicate, ts, polarity⟩ := by
  have predicate_plain := ne_parenthesis_of_isSymbol symbol
  unfold parseAtom
  cases applied with
  | none =>
    rw [List.append_nil, List.dropWhile_eq_nil_iff.2 predicate_plain]
    exact if_pos symbol
  | @some names parts blanks ne_nil named blank =>
    have front : ∀ c ∈ predicate ++ blanks, (c != '(') = true :=
      List.forall_mem_append.2 ⟨predicate_plain, fun c hc => bne_iff_ne.2 (ne_of_isBlank (blank c hc) (by decide))⟩
    have no_parenthesis : (([','].intercalate parts).any fun c => c == '(' || c == ')') = false := by
      refine List.any_eq_false.2 fun c hc => ?_
      obtain ⟨not_open, not_close⟩ := ne_parenthesis_of_named named hc
      simp [not_open, not_close]
    have read := parseArguments_eq_some_iff.2 ⟨names, parts, ne_nil, named, rfl, rfl⟩
    rw [← List.append_assoc, List.dropWhile_append_of_pos front, List.takeWhile_append_of_pos front]
    simp [no_parenthesis, read, symbol, trimEnd_append blank, (tight_of_isSymbol symbol).trimEnd]

theorem written_of_parseAtom {s : String} (parsed : parseAtom s polarity cs = .ok l) :
    ∃ predicate arguments ts, isSymbol predicate = true ∧ Arguments ts arguments ∧ cs = predicate ++ arguments ∧
      l = ⟨String.ofList predicate, ts, polarity⟩ := by
  unfold parseAtom at parsed
  split at parsed
  · split at parsed
    · next symbol =>
      cases parsed
      exact ⟨cs, [], [], symbol, .none, (List.append_nil cs).symm, rfl⟩
    · cases parsed
  next first rest cut =>
  have opened : first = '(' := by
    have head := List.head?_dropWhile_not (· != '(') cs
    rw [cut] at head
    simpa using head
  dsimp only at parsed
  split at parsed
  · cases parsed
  next closed =>
  split at parsed
  · cases parsed
  next ts read =>
  split at parsed
  · next symbol =>
    cases parsed
    obtain ⟨names, parts, ne_nil, named, inner, rfl⟩ := parseArguments_eq_some_iff.1 read
    obtain ⟨blanks, blank, front⟩ := exists_trimEnd (cs.takeWhile (· != '('))
    have last : [','].intercalate parts ++ [')'] = rest := by
      rw [← inner]
      refine List.dropLast_append_getLast? ')' ?_
      simp at closed
      exact closed.1
    refine ⟨_, _, _, symbol, .some ne_nil named blank, ?_, rfl⟩
    calc cs = cs.takeWhile (· != '(') ++ cs.dropWhile (· != '(') := List.takeWhile_append_dropWhile.symm
      _ = (trimEnd (cs.takeWhile (· != '(')) ++ blanks) ++ '(' :: rest := by rw [← front, cut, opened]
      _ = _ := by rw [List.append_assoc, last]
  · cases parsed

/-! #### Texts of literals -/

section Core

variable {marks : List Char} (marked : Marks n marks) (symbol : isSymbol predicate = true)

include marked symbol

theorem cut_core : (marks ++ (predicate ++ arguments)).takeWhile (fun c => isMark c || isBlank c) = marks ∧
    (marks ++ (predicate ++ arguments)).dropWhile (fun c => isMark c || isBlank c) = predicate ++ arguments := by
  obtain ⟨ne_nil, symbols⟩ := isSymbol_iff.1 symbol
  obtain ⟨d, rest, rfl⟩ := List.exists_cons_of_ne_nil ne_nil
  have first := symbols d List.mem_cons_self
  have unmarked : isMark d = false := Bool.eq_false_iff.2 fun mark => by
    rcases isMark_iff.1 mark with rfl | rfl <;> exact absurd first (by decide)
  have stop : (isMark d || isBlank d) = false := by rw [unmarked, isBlank_of_isSymbolChar first]; rfl
  rw [List.takeWhile_append_of_pos marked.all, List.dropWhile_append_of_pos marked.all, List.cons_append,
    List.takeWhile_cons, List.dropWhile_cons, stop, if_neg Bool.false_ne_true, if_neg Bool.false_ne_true,
    List.append_nil]
  exact ⟨rfl, rfl⟩

variable (applied : Arguments ts arguments)

include applied

theorem tight_core : Tight (marks ++ (predicate ++ arguments)) := by
  have predicate_tight := tight_of_isSymbol symbol
  have ne_nil : predicate ++ arguments ≠ [] := List.append_ne_nil_of_left_ne_nil predicate_tight.ne_nil _
  refine ⟨List.append_ne_nil_of_right_ne_nil _ ne_nil, ?_, ?_⟩
  · cases marked with
    | none =>
      rw [List.nil_append, List.head?_append_of_ne_nil _ predicate_tight.ne_nil]
      exact predicate_tight.head
    | mark mark _ _ =>
      intro d hd
      obtain rfl := Option.some.inj hd
      exact isBlank_of_isMark mark
  · rw [List.getLast?_append_of_ne_nil _ ne_nil]
    cases applied with
    | none =>
      rw [List.append_nil]
      exact predicate_tight.last
    | @some names parts blanks _ _ _ =>
      intro d hd
      rw [← List.append_assoc, ← List.cons_append, ← List.append_assoc, List.getLast?_concat] at hd
      obtain rfl := Option.some.inj hd
      decide

theorem uncut_core : Uncut (marks ++ (predicate ++ arguments)) := by
  have symbols := (isSymbol_iff.1 symbol).2
  have marks_uncut : Uncut marks := uncut_of_plain fun c hc => by
    rcases Bool.or_eq_true_iff.1 (marked.all c hc) with mark | blank
    · rcases isMark_iff.1 mark with rfl | rfl <;> decide
    · exact plain_of_isBlank blank
  have predicate_uncut : Uncut predicate := uncut_of_plain fun c hc => plain_of_isSymbolChar (symbols c hc)
  refine marks_uncut.append (predicate_uncut.append ?_)
  cases applied with
  | none => exact uncut_of_plain (List.forall_mem_nil _)
  | some ne_nil named blank =>
    refine Uncut.append blank.uncut ?_
    exact uncut_parentheses fun c hc => ne_parenthesis_of_named named hc

end Core

theorem parse_eq_ok_iff {s : String} : parse s = .ok l ↔ l.Written s.toList := by
  constructor
  · intro parsed
    unfold parse at parsed
    dsimp only at parsed
    split at parsed
    · cases parsed
    split at parsed
    · cases parsed
    obtain ⟨predicate, arguments, ts, symbol, applied, body, rfl⟩ := written_of_parseAtom parsed
    obtain ⟨blanks, marks, blank, marked, front⟩ := Marks.exists_of_all fun c hc =>
      List.mem_takeWhile_imp (p := fun c => isMark c || isBlank c) (l := trim s.toList) hc
    have whole : trim s.toList = blanks ++ marks ++ (predicate ++ arguments) := by
      rw [← front, ← body, List.takeWhile_append_dropWhile]
    obtain rfl : blanks = [] := by
      cases blanks with
      | nil => rfl
      | cons b blanks =>
        have solid := head_trim b (by rw [whole]; rfl)
        rw [blank b List.mem_cons_self] at solid
        cases solid
    exact .intro marked symbol applied (whole ▸ padded_trim s.toList)
  · generalize text : s.toList = cs
    rintro ⟨marked, symbol, applied, padded⟩
    obtain ⟨front, body⟩ := cut_core marked symbol
    unfold parse
    rw [text, padded.trim_eq (tight_core marked symbol applied)]
    dsimp only
    rw [front, body, marked.countP, if_neg (by simpa using (tight_core marked symbol applied).ne_nil),
      if_neg (by simp [(tight_of_isSymbol symbol).ne_nil])]
    exact parseAtom_of_written symbol applied

theorem Written.uncut (written : l.Written cs) : Uncut cs := by
  obtain ⟨marked, symbol, applied, pre, post, before, after, rfl⟩ := written
  exact (before.uncut.append (uncut_core marked symbol applied)).append after.uncut

theorem Written.not_blank (written : l.Written cs) : ¬ Blank cs := by
  obtain ⟨marked, symbol, applied, pre, post, before, after, rfl⟩ := written
  intro blank
  refine (tight_core marked symbol applied).not_blank fun c hc => blank c ?_
  exact List.mem_append_left _ (List.mem_append_right _ hc)

end Literal

/-! ### Clauses -/

namespace Clause

variable {c : Clause} {cs : List Char}

/-- How a clause is written: as blanks if it is empty, or else as its literals with commas between them, in any order
and any number of times. -/
inductive Written : Clause → List Char → Prop
  | blank {cs : List Char} (blank : Blank cs) : Written .empty cs
  | literals {ls : List Literal} {parts : List (List Char)} (ne_nil : ls ≠ [])
      (written : List.Forall₂ Literal.Written ls parts) : Written (.ofList ls) ([','].intercalate parts)

theorem isEmpty_ofList {ls : List Literal} (ne_nil : ls ≠ []) : (ofList ls).isEmpty = false := by
  obtain ⟨l, ls, rfl⟩ := List.exists_cons_of_ne_nil ne_nil
  refine Bool.eq_false_iff.2 fun none => OrdSet.isEmpty_iff.1 none l ?_
  exact OrdSet.mem_ofList.2 List.mem_cons_self

theorem Written.isEmpty_iff (written : c.Written cs) : c.isEmpty = true ↔ Blank cs := by
  cases written with
  | blank blank => exact iff_of_true rfl blank
  | @literals ls parts ne_nil written =>
    refine iff_of_false (by rw [isEmpty_ofList ne_nil]; exact Bool.false_ne_true) fun blank => ?_
    cases written with
    | nil => exact absurd rfl ne_nil
    | cons first _ => exact first.not_blank fun c hc => blank c (mem_intercalate_of_mem List.mem_cons_self hc)

theorem parseChars_eq_ok_iff : parseChars cs = .ok c ↔ c.Written cs := by
  unfold parseChars
  constructor
  · intro parsed
    split at parsed
    · next none =>
      cases parsed
      exact .blank (trim_eq_nil.1 (List.isEmpty_iff.1 none))
    split at parsed
    · cases parsed
    next parts cut =>
    obtain ⟨some_part, rfl⟩ := intercalate_of_splitTopLevel cut
    cases read : parts.mapM (fun part => Literal.parse (String.ofList part)) with
    | error e => rw [read] at parsed; cases parsed
    | ok ls =>
      rw [read] at parsed
      cases parsed
      have written : List.Forall₂ Literal.Written ls parts :=
        (mapM_eq_ok_iff.1 read).flip.imp fun l part h => by
          rw [← String.toList_ofList (l := part)]
          exact Literal.parse_eq_ok_iff.1 h
      refine .literals ?_ written
      rintro rfl
      exact some_part (List.forall₂_nil_left_iff.1 written)
  · intro written
    have visible := written.isEmpty_iff
    cases written with
    | blank blank => rw [trim_eq_nil.2 blank, if_pos List.isEmpty_nil]
    | @literals ls parts ne_nil written =>
      have not_blank : ¬ (trim ([','].intercalate parts)).isEmpty = true := by
        rw [List.isEmpty_iff, trim_eq_nil, ← visible, isEmpty_ofList ne_nil]
        exact Bool.false_ne_true
      have some_part : parts ≠ [] := by
        rintro rfl
        exact ne_nil (List.forall₂_nil_right_iff.1 written)
      have uncut := ((List.forall₂_and_left _ _).1 (written.flip.imp fun part l h => ⟨h.uncut, h⟩)).1
      have read : parts.mapM (fun part => Literal.parse (String.ofList part)) = .ok ls :=
        mapM_eq_ok_iff.2 <| written.flip.imp fun part l h =>
          Literal.parse_eq_ok_iff.2 (by rwa [String.toList_ofList])
      rw [if_neg not_blank, splitTopLevel_intercalate some_part uncut]
      show ofList <$> parts.mapM _ = _
      rw [read]
      rfl

theorem parse_eq_ok_iff {s : String} : parse s = .ok c ↔ c.Written s.toList := parseChars_eq_ok_iff

end Clause

/-! ### Default rules -/

namespace DefaultRule

variable {r : DefaultRule} {cs : List Char}

/-- How a default rule is written: as its antecedent and its consequent around the first arrow. The consequent may not
be left out. -/
inductive Written : DefaultRule → List Char → Prop
  | intro {r : DefaultRule} {before after cs : List Char} (cut : FirstArrow before after cs)
      (antecedent : r.antecedent.Written before) (consequent : r.consequent.Written after)
      (visible : ¬ Blank after) : Written r cs

theorem parse_eq_ok_iff {s : String} : parse s = .ok r ↔ r.Written s.toList := by
  unfold parse
  constructor
  · intro parsed
    split at parsed
    · cases parsed
    next before after cut =>
    cases consequent : Clause.parseChars after with
    | error e => rw [consequent] at parsed; cases parsed
    | ok c =>
      rw [consequent] at parsed
      have written := Clause.parseChars_eq_ok_iff.1 consequent
      cases empty : c.isEmpty with
      | true => simp [bind, Except.bind, empty] at parsed
      | false =>
        cases antecedent : Clause.parseChars before with
        | error e => simp [bind, Except.bind, empty, antecedent] at parsed
        | ok a =>
          simp only [bind, Except.bind, empty, antecedent, pure, Except.pure] at parsed
          cases parsed
          refine ⟨splitArrow_eq_some_iff.1 cut, Clause.parseChars_eq_ok_iff.1 antecedent, written, ?_⟩
          rw [← written.isEmpty_iff, empty]
          exact Bool.false_ne_true
  · generalize s.toList = cs
    rintro ⟨cut, antecedent, consequent, visible⟩
    have some_literal : r.consequent.isEmpty = false :=
      Bool.eq_false_iff.2 (consequent.isEmpty_iff.not.2 visible)
    rw [splitArrow_eq_some_iff.2 cut]
    dsimp only
    rw [Clause.parseChars_eq_ok_iff.2 consequent, Clause.parseChars_eq_ok_iff.2 antecedent]
    simp [bind, Except.bind, some_literal, pure, Except.pure]

end DefaultRule

/-- The parsers accept the texts of the grammar and no others, and read what the grammar says. -/
theorem parse_iff_written (s : String) :
    (∀ l, Literal.parse s = .ok l ↔ l.Written s.toList) ∧
    (∀ c, Clause.parse s = .ok c ↔ c.Written s.toList) ∧
    ∀ r, DefaultRule.parse s = .ok r ↔ r.Written s.toList :=
  ⟨fun _ => Literal.parse_eq_ok_iff, fun _ => Clause.parse_eq_ok_iff, fun _ => DefaultRule.parse_eq_ok_iff⟩

end Defeasible
