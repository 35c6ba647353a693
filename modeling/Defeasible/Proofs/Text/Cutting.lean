import Defeasible.Text.Alphanumeric
import Defeasible.Text.Blank
import Defeasible.Text.Join
import Defeasible.Text.Split
import Mathlib.Data.List.Basic
import Mathlib.Data.List.Forall2
import Mathlib.Data.List.TakeWhile
import Mathlib.Data.Set.Card

/-! Texts with blanks around them, and texts that are cut at commas or at an arrow. What was cut is put together again
by what it was cut at. -/

namespace Defeasible.Text

variable {c d : Char} {cs core pre post rest : List Char} {parts texts : List (List Char)}

theorem Ranges.exists_of_has {rs : Ranges} {n : Nat} (has : rs.has n = true) :
    ∃ r ∈ rs, r.1 ≤ n ∧ n ≤ r.2 := by
  induction rs with
  | nil => cases has
  | cons r rs ih =>
    rw [Ranges.has] at has
    split at has
    · cases has
    · next above =>
      rcases Bool.or_eq_true_iff.1 has with le | has
      · exact ⟨r, List.mem_cons_self, Nat.le_of_not_lt above, of_decide_eq_true le⟩
      · obtain ⟨r', mem, within⟩ := ih has
        exact ⟨r', List.mem_cons_of_mem _ mem, within⟩

theorem isBlank_of_isAlphanumeric (alphanumeric : isAlphanumeric c = true) : isBlank c = false := by
  have blanks : ∀ n ∈ blankRanges.flatMap fun r => List.range' r.1 (r.2 + 1 - r.1),
      alphanumericRanges.has n = false := by decide +kernel
  refine Bool.eq_false_iff.2 fun blank => ?_
  obtain ⟨r, mem, low, high⟩ := Ranges.exists_of_has blank
  have listed : c.toNat ∈ blankRanges.flatMap fun r => List.range' r.1 (r.2 + 1 - r.1) :=
    List.mem_flatMap.2 ⟨r, mem, List.mem_range'_1.2 ⟨low, by omega⟩⟩
  rw [isAlphanumeric, blanks _ listed] at alphanumeric
  cases alphanumeric

theorem ne_of_isBlank (blank : isBlank c = true) (solid : isBlank d = false) : c ≠ d := by
  rintro rfl
  rw [solid] at blank
  cases blank

/-! ### Blanks around a text -/

def Blank (cs : List Char) : Prop := ∀ c ∈ cs, isBlank c = true

theorem blank_nil : Blank [] := List.forall_mem_nil _

theorem blank_space : Blank [' '] := List.forall_mem_singleton.2 (by decide)

theorem Blank.append (before : Blank pre) (after : Blank post) : Blank (pre ++ post) :=
  List.forall_mem_append.2 ⟨before, after⟩

def Padded (core cs : List Char) : Prop := ∃ pre post, Blank pre ∧ Blank post ∧ cs = pre ++ core ++ post

theorem padded_self (cs : List Char) : Padded cs cs := ⟨[], [], blank_nil, blank_nil, (List.append_nil cs).symm⟩

theorem Padded.pad (padded : Padded core cs) (before : Blank pre) (after : Blank post) :
    Padded core (pre ++ cs ++ post) := by
  obtain ⟨pre', post', before', after', rfl⟩ := padded
  exact ⟨pre ++ pre', post' ++ post, before.append before', after'.append after, by simp only [List.append_assoc]⟩

theorem Padded.mem (padded : Padded core cs) (mem : c ∈ cs) : isBlank c = true ∨ c ∈ core := by
  obtain ⟨pre, post, before, after, rfl⟩ := padded
  rw [List.mem_append, List.mem_append] at mem
  rcases mem with (mem | mem) | mem
  · exact .inl (before c mem)
  · exact .inr mem
  · exact .inl (after c mem)

structure Tight (cs : List Char) : Prop where
  ne_nil : cs ≠ []
  head : ∀ c ∈ cs.head?, isBlank c = false
  last : ∀ c ∈ cs.getLast?, isBlank c = false

theorem Tight.not_blank (tight : Tight cs) : ¬ Blank cs := by
  intro blank
  obtain ⟨c, hc⟩ := Option.ne_none_iff_exists'.1 (List.head?_eq_none_iff.not.2 tight.ne_nil)
  have solid := tight.head c hc
  rw [blank c (List.mem_of_head? hc)] at solid
  cases solid

theorem tight_of_forall (ne_nil : cs ≠ []) (solid : ∀ c ∈ cs, isBlank c = false) : Tight cs :=
  ⟨ne_nil, fun c hc => solid c (List.mem_of_head? hc), fun c hc => solid c (List.mem_of_getLast? hc)⟩

theorem dropWhile_eq_self {p : Char → Bool} (head : ∀ c ∈ cs.head?, p c = false) : cs.dropWhile p = cs := by
  cases cs with
  | nil => rfl
  | cons c cs => rw [List.dropWhile_cons, if_neg (by rw [head c rfl]; exact Bool.false_ne_true)]

theorem trimStart_append (before : Blank pre) : trimStart (pre ++ cs) = trimStart cs :=
  List.dropWhile_append_of_pos before

theorem trimEnd_append (after : Blank post) : trimEnd (cs ++ post) = trimEnd cs := by
  rw [trimEnd, List.reverse_append, List.dropWhile_append_of_pos fun c hc => after c (List.mem_reverse.1 hc), trimEnd]

theorem exists_trimStart (cs : List Char) : ∃ pre, Blank pre ∧ cs = pre ++ trimStart cs :=
  ⟨cs.takeWhile isBlank, fun _ => List.mem_takeWhile_imp, List.takeWhile_append_dropWhile.symm⟩

theorem exists_trimEnd (cs : List Char) : ∃ post, Blank post ∧ cs = trimEnd cs ++ post := by
  refine ⟨(cs.reverse.takeWhile isBlank).reverse, fun c hc => ?_, ?_⟩
  · exact List.mem_takeWhile_imp (List.mem_reverse.1 hc)
  · rw [trimEnd, ← List.reverse_append, List.takeWhile_append_dropWhile, List.reverse_reverse]

theorem padded_trim (cs : List Char) : Padded (trim cs) cs := by
  obtain ⟨pre, before, start⟩ := exists_trimStart cs
  obtain ⟨post, after, whole⟩ := exists_trimEnd (trimStart cs)
  exact ⟨pre, post, before, after, by rw [List.append_assoc, trim, ← whole, ← start]⟩

theorem trim_eq_nil : trim cs = [] ↔ Blank cs := by
  constructor
  · intro none c hc
    exact (none ▸ padded_trim cs).mem hc |>.resolve_right List.not_mem_nil
  · intro blank
    rw [← List.append_nil cs, trim, trimStart_append blank]
    rfl

theorem head_trim : ∀ c ∈ (trim cs).head?, isBlank c = false := by
  obtain ⟨post, -, whole⟩ := exists_trimEnd (trimStart cs)
  intro c hc
  have first : (trimStart cs).head? = some c := by
    rw [whole, List.head?_append, show (trimEnd (trimStart cs)).head? = some c from hc, Option.some_or]
  have start := List.head?_dropWhile_not isBlank cs
  rw [show (cs.dropWhile isBlank).head? = some c from first] at start
  exact Bool.eq_false_iff.2 (by simpa using start)

theorem Tight.trimEnd (tight : Tight cs) : trimEnd cs = cs := by
  rw [Text.trimEnd, dropWhile_eq_self (by simpa using tight.last), List.reverse_reverse]

theorem Padded.trim_eq (padded : Padded core cs) (tight : Tight core) : trim cs = core := by
  obtain ⟨pre, post, before, after, rfl⟩ := padded
  have start : trimStart (core ++ post) = core ++ post := by
    refine dropWhile_eq_self fun c hc => tight.head c ?_
    rwa [List.head?_append_of_ne_nil _ tight.ne_nil] at hc
  rw [List.append_assoc, trim, trimStart_append before, start, trimEnd_append after, tight.trimEnd]

theorem trim_append (after : Blank post) : trim (cs ++ post) = trim cs := by
  unfold trim trimStart
  rw [List.dropWhile_append]
  split
  · next none =>
    rw [List.dropWhile_eq_nil_iff.2 after, List.isEmpty_iff.1 none]
  · exact trimEnd_append after

theorem Tight.append (first : Tight pre) (core : List Char) (second : Tight post) : Tight (pre ++ (core ++ post)) := by
  have ne_nil : core ++ post ≠ [] := List.append_ne_nil_of_right_ne_nil _ second.ne_nil
  refine ⟨List.append_ne_nil_of_left_ne_nil first.ne_nil _, ?_, ?_⟩
  · rw [List.head?_append_of_ne_nil _ first.ne_nil]
    exact first.head
  · rw [List.getLast?_append_of_ne_nil _ ne_nil, List.getLast?_append_of_ne_nil _ second.ne_nil]
    exact second.last

/-! ### Cutting at commas -/

theorem consFirst_eq_modifyHead (ne_nil : parts ≠ []) : consFirst c parts = parts.modifyHead (c :: ·) := by
  cases parts with
  | nil => exact absurd rfl ne_nil
  | cons part parts => rfl

theorem splitAt_eq_splitOn (sep : Char) (cs : List Char) : splitAt sep cs = cs.splitOn sep := by
  induction cs with
  | nil => rfl
  | cons c cs ih =>
    rw [splitAt, List.splitOn_cons_eq_if_modifyHead, ih, consFirst_eq_modifyHead (List.splitOn_ne_nil sep cs)]
    simp only [beq_iff_eq]

theorem mem_intercalate (mem : c ∈ [','].intercalate parts) : c = ',' ∨ ∃ part ∈ parts, c ∈ part := by
  induction parts with
  | nil => cases mem
  | cons part parts ih =>
    cases parts with
    | nil =>
      rw [List.intercalate_singleton] at mem
      exact .inr ⟨part, List.mem_cons_self, mem⟩
    | cons next parts =>
      rw [List.intercalate_cons_cons, List.mem_append, List.mem_append, List.mem_singleton] at mem
      rcases mem with (mem | comma) | mem
      · exact .inr ⟨part, List.mem_cons_self, mem⟩
      · exact .inl comma
      · exact (ih mem).imp_right fun ⟨part', among, mem⟩ => ⟨part', List.mem_cons_of_mem part among, mem⟩

theorem mem_intercalate_of_mem {part : List Char} (among : part ∈ parts) (mem : c ∈ part) :
    c ∈ [','].intercalate parts := by
  induction parts with
  | nil => cases among
  | cons first parts ih =>
    cases parts with
    | nil =>
      rw [List.intercalate_singleton]
      exact List.mem_singleton.1 among ▸ mem
    | cons next parts =>
      rw [List.intercalate_cons_cons, List.mem_append]
      rcases List.mem_cons.1 among with rfl | among
      · exact .inl (List.mem_append_left _ mem)
      · exact .inr (ih among)

theorem intercalate_pad {α : Type} {R : α → List Char → Prop} {as : List α} (related : List.Forall₂ R as parts)
    (ne_nil : parts ≠ []) (closed : ∀ a core cs, R a core → Padded core cs → R a cs) (before : Blank pre)
    (after : Blank post) :
    ∃ parts', pre ++ [','].intercalate parts ++ post = [','].intercalate parts' ∧ List.Forall₂ R as parts' := by
  induction related generalizing pre with
  | nil => exact absurd rfl ne_nil
  | @cons a part as parts first rest ih =>
    cases rest with
    | nil =>
      refine ⟨[pre ++ part ++ post], ?_, .cons (closed a part _ first ⟨pre, post, before, after, rfl⟩) .nil⟩
      rw [List.intercalate_singleton, List.intercalate_singleton]
    | @cons b next as parts second rest =>
      obtain ⟨parts', joined, related⟩ := ih (List.cons_ne_nil _ _) blank_nil
      have padded : Padded part (pre ++ part) := ⟨pre, [], before, blank_nil, (List.append_nil _).symm⟩
      refine ⟨(pre ++ part) :: parts', ?_, .cons (closed a part _ first padded) related⟩
      cases related with
      | cons _ _ =>
        rw [List.intercalate_cons_cons, List.intercalate_cons_cons, ← joined]
        simp only [List.append_assoc, List.nil_append]

theorem consFirst_ne_nil : consFirst c parts ≠ [] := by
  cases parts <;> exact List.cons_ne_nil _ _

theorem intercalate_consFirst (ne_nil : parts ≠ []) :
    [','].intercalate (consFirst c parts) = c :: [','].intercalate parts := by
  match parts with
  | [] => exact absurd rfl ne_nil
  | [part] => rfl
  | part :: next :: parts => rfl

theorem foldr_consFirst (part : List Char) (parts : List (List Char)) :
    cs.foldr consFirst (part :: parts) = (cs ++ part) :: parts := by
  induction cs with
  | nil => rfl
  | cons c cs ih => rw [List.foldr_cons, ih]; rfl

theorem intercalate_of_splitTopLevel {depth : Nat} (cut : splitTopLevel depth cs = some parts) :
    parts ≠ [] ∧ [','].intercalate parts = cs := by
  have glued {depth : Nat} {c : Char} {cs : List Char}
      (ih : ∀ {parts}, splitTopLevel depth cs = some parts → parts ≠ [] ∧ [','].intercalate parts = cs)
      {parts : List (List Char)} (cut : (splitTopLevel depth cs).map (consFirst c) = some parts) :
      parts ≠ [] ∧ [','].intercalate parts = c :: cs := by
    obtain ⟨parts, rest, rfl⟩ := Option.map_eq_some_iff.1 cut
    obtain ⟨ne_nil, rfl⟩ := ih rest
    exact ⟨consFirst_ne_nil, intercalate_consFirst ne_nil⟩
  fun_induction splitTopLevel depth cs generalizing parts with
  | case1 =>
    cases cut
    exact ⟨List.cons_ne_nil _ _, rfl⟩
  | case2 => cases cut
  | case3 _ _ ih => exact glued ih cut
  | case4 => cases cut
  | case5 _ _ _ ih => exact glued ih cut
  | case6 depth c cs _ _ comma ih =>
    obtain ⟨parts, rest, rfl⟩ := Option.map_eq_some_iff.1 cut
    obtain ⟨ne_nil, rfl⟩ := ih rest
    obtain ⟨next, parts, rfl⟩ := List.exists_cons_of_ne_nil ne_nil
    refine ⟨List.cons_ne_nil _ _, ?_⟩
    rw [List.intercalate_cons_cons, comma.1]
    rfl
  | case7 _ _ _ _ _ _ ih => exact glued ih cut

/-- A text that is not cut, so that it belongs to the first part of what comes after it. -/
def Uncut (cs : List Char) : Prop :=
  ∀ rest, splitTopLevel 0 (cs ++ rest) = (splitTopLevel 0 rest).map (cs.foldr consFirst)

theorem Uncut.append (first : Uncut cs) (second : Uncut post) : Uncut (cs ++ post) := fun rest => by
  rw [List.append_assoc, first, second, Option.map_map]
  exact congrArg (Option.map · _) (funext fun parts => (List.foldr_append ..).symm)

theorem splitTopLevel_append {depth : Nat} (plain : ∀ c ∈ cs, c ≠ '(' ∧ c ≠ ')' ∧ (c = ',' → depth ≠ 0))
    (rest : List Char) :
    splitTopLevel depth (cs ++ rest) = (splitTopLevel depth rest).map (cs.foldr consFirst) := by
  induction cs with
  | nil => exact Option.map_id'.symm
  | cons c cs ih =>
    obtain ⟨⟨not_open, not_close, inside⟩, plain⟩ := List.forall_mem_cons.1 plain
    have step : splitTopLevel depth (c :: (cs ++ rest)) = (splitTopLevel depth (cs ++ rest)).map (consFirst c) := by
      cases depth <;> rw [splitTopLevel, if_neg not_open, if_neg not_close,
        if_neg fun ⟨comma, outside⟩ => inside comma outside]
    rw [List.cons_append, step, ih plain, Option.map_map]
    rfl

theorem uncut_of_plain (plain : ∀ c ∈ cs, c ≠ '(' ∧ c ≠ ')' ∧ c ≠ ',') : Uncut cs :=
  splitTopLevel_append fun c hc => ⟨(plain c hc).1, (plain c hc).2.1, fun comma => absurd comma (plain c hc).2.2⟩

theorem plain_of_isBlank (blank : isBlank c = true) : c ≠ '(' ∧ c ≠ ')' ∧ c ≠ ',' :=
  ⟨ne_of_isBlank blank (by decide), ne_of_isBlank blank (by decide), ne_of_isBlank blank (by decide)⟩

theorem Blank.uncut (blank : Blank cs) : Uncut cs := uncut_of_plain fun c hc => plain_of_isBlank (blank c hc)

theorem uncut_parentheses (plain : ∀ c ∈ cs, c ≠ '(' ∧ c ≠ ')') : Uncut ('(' :: (cs ++ [')'])) := by
  intro rest
  have closed : splitTopLevel 1 (')' :: rest) = (splitTopLevel 0 rest).map (consFirst ')') := rfl
  have opened : splitTopLevel 0 ('(' :: (cs ++ ')' :: rest)) =
      (splitTopLevel 1 (cs ++ ')' :: rest)).map (consFirst '(') := rfl
  have inside := splitTopLevel_append (fun c hc => ⟨(plain c hc).1, (plain c hc).2, fun _ => Nat.one_ne_zero⟩)
    (')' :: rest)
  have shape : '(' :: (cs ++ [')']) ++ rest = '(' :: (cs ++ ')' :: rest) := by simp
  rw [shape, opened, inside, closed, Option.map_map, Option.map_map]
  refine congrArg (Option.map · _) (funext fun parts => ?_)
  simp [List.foldr_append]

theorem splitTopLevel_intercalate (ne_nil : parts ≠ []) (uncut : ∀ part ∈ parts, Uncut part) :
    splitTopLevel 0 ([','].intercalate parts) = some parts := by
  induction parts with
  | nil => exact absurd rfl ne_nil
  | cons part parts ih =>
    obtain ⟨first, uncut⟩ := List.forall_mem_cons.1 uncut
    cases parts with
    | nil =>
      have alone := first []
      rw [List.append_nil, splitTopLevel, Option.map_some, foldr_consFirst, List.append_nil] at alone
      rw [List.intercalate_singleton, alone]
    | cons next parts =>
      have comma (cs : List Char) : splitTopLevel 0 (',' :: cs) = (splitTopLevel 0 cs).map ([] :: ·) := rfl
      rw [List.intercalate_cons_cons, List.append_assoc, first, List.singleton_append, comma,
        ih (List.cons_ne_nil _ _) uncut, Option.map_some, Option.map_some, foldr_consFirst, List.append_nil]

theorem splitOn_flatMap {sep : Char} (plain : ∀ part ∈ parts, sep ∉ part) (rest : List Char) :
    (parts.flatMap (· ++ [sep]) ++ rest).splitOn sep = parts ++ rest.splitOn sep := by
  induction parts with
  | nil => rfl
  | cons part parts ih =>
    obtain ⟨first, plain⟩ := List.forall_mem_cons.1 plain
    rw [List.flatMap_cons, List.append_assoc, List.append_assoc, List.singleton_append,
      List.splitOn_append_cons_self, List.splitOn_eq_singleton first, ih plain]
    rfl

/-! ### Joined texts -/

theorem joinComma_eq_intercalate (texts : List (List Char)) :
    ∃ parts, joinComma texts = [','].intercalate parts ∧ List.Forall₂ Padded texts parts := by
  induction texts using joinComma.induct with
  | case1 => exact ⟨[], rfl, .nil⟩
  | case2 text => exact ⟨[text], List.intercalate_singleton.symm, .cons (padded_self text) .nil⟩
  | case3 text texts ne_nil ih =>
    obtain ⟨parts, joined, padded⟩ := ih
    cases padded with
    | nil => exact absurd rfl ne_nil
    | @cons next part texts parts first padded =>
      have spaced := first.pad blank_space blank_nil
      rw [List.append_nil] at spaced
      refine ⟨text :: ([' '] ++ part) :: parts, ?_, .cons (padded_self text) (.cons spaced padded)⟩
      rw [joinComma.eq_3 _ _ ne_nil, joined]
      cases parts <;> simp

theorem mem_joinComma (mem : c ∈ joinComma texts) : c = ',' ∨ c = ' ' ∨ ∃ text ∈ texts, c ∈ text := by
  induction texts using joinComma.induct with
  | case1 => cases mem
  | case2 text => exact .inr (.inr ⟨text, List.mem_singleton_self text, mem⟩)
  | case3 text texts ne_nil ih =>
    rw [joinComma.eq_3 _ _ ne_nil, List.mem_append, List.mem_cons, List.mem_cons] at mem
    rcases mem with mem | comma | space | mem
    · exact .inr (.inr ⟨text, List.mem_cons_self, mem⟩)
    · exact .inl comma
    · exact .inr (.inl space)
    · refine (ih mem).imp_right (Or.imp_right ?_)
      exact fun ⟨text', among, mem⟩ => ⟨text', List.mem_cons_of_mem text among, mem⟩

theorem tight_joinComma (ne_nil : texts ≠ []) (tight : ∀ text ∈ texts, Tight text) : Tight (joinComma texts) := by
  induction texts using joinComma.induct with
  | case1 => exact absurd rfl ne_nil
  | case2 text => exact tight text (List.mem_singleton_self text)
  | case3 text texts some_text ih =>
    obtain ⟨first, rest⟩ := List.forall_mem_cons.1 tight
    rw [joinComma.eq_3 _ _ some_text]
    exact first.append [',', ' '] (ih some_text rest)

/-! ### Cutting at an arrow -/

structure FirstArrow (before after cs : List Char) : Prop where
  cut : cs = before ++ '-' :: '>' :: after
  first : ∀ pre post, cs = pre ++ '-' :: '>' :: post → before.length ≤ pre.length

theorem splitArrow_eq_some_iff {before after : List Char} :
    splitArrow cs = some (before, after) ↔ FirstArrow before after cs := by
  constructor
  · intro cut
    induction cs using splitArrow.induct generalizing before with
    | case1 rest =>
      cases cut
      exact ⟨rfl, fun _ _ _ => Nat.zero_le _⟩
    | case2 c cs not_here ih =>
      rw [splitArrow.eq_2 _ _ not_here] at cut
      obtain ⟨⟨before, after⟩, cut, same⟩ := Option.map_eq_some_iff.1 cut
      cases same
      obtain ⟨rfl, first⟩ := ih cut
      refine ⟨rfl, fun pre post other => ?_⟩
      cases pre with
      | nil =>
        obtain ⟨rfl, here⟩ := List.cons.inj other
        exact absurd here (not_here _ rfl)
      | cons d pre => exact Nat.succ_le_succ (first pre post (List.cons.inj other).2)
    | case3 => cases cut
  · intro ⟨cut, first⟩
    induction before generalizing cs with
    | nil =>
      rw [cut]
      rfl
    | cons c before ih =>
      obtain rfl := cut
      have not_here (post : List Char) (dash : c = '-') (next : before ++ '-' :: '>' :: after = '>' :: post) :
          False := by
        have shorter := first [] post (by rw [dash, List.cons_append, next]; rfl)
        cases shorter
      rw [List.cons_append, splitArrow.eq_2 _ _ not_here, ih rfl fun pre post other => ?_]
      · rfl
      · exact Nat.le_of_succ_le_succ (first (c :: pre) post (congrArg (c :: ·) other))

theorem firstArrow_of_forall {before after : List Char} (no_arrow : ∀ c ∈ before, c ≠ '>') :
    FirstArrow before after (before ++ '-' :: '>' :: after) := by
  refine ⟨rfl, fun pre post other => ?_⟩
  rcases List.append_eq_append_iff.1 other with ⟨mid, rfl, -⟩ | ⟨mid, rfl, rest⟩
  · rw [List.length_append]
    exact Nat.le_add_right _ _
  · match mid with
    | [] => rw [List.append_nil]
    | [_] => cases (List.cons.inj (List.cons.inj rest).2).1
    | _ :: d :: mid =>
      obtain rfl : '>' = d := (List.cons.inj (List.cons.inj rest).2).1
      exact absurd rfl (no_arrow '>' (by simp))

/-! ### Counting arrows -/

theorem countArrows_of_forall (no_arrow : ∀ c ∈ cs, c ≠ '>') : countArrows cs = 0 := by
  induction cs using countArrows.induct with
  | case1 rest => exact absurd rfl (no_arrow '>' (by simp))
  | case2 c cs not_here ih =>
    rw [countArrows.eq_2 _ _ not_here]
    exact ih fun d hd => no_arrow d (List.mem_cons_of_mem c hd)
  | case3 => rfl

theorem countArrows_eq_one {before after : List Char} (no_arrow : ∀ c ∈ before, c ≠ '>')
    (no_more : ∀ c ∈ after, c ≠ '>') : countArrows (before ++ '-' :: '>' :: after) = 1 := by
  induction before with
  | nil => exact congrArg (· + 1) (countArrows_of_forall no_more)
  | cons c before ih =>
    obtain ⟨-, no_arrow⟩ := List.forall_mem_cons.1 no_arrow
    rw [List.cons_append, countArrows.eq_2 _ _ ?_, ih no_arrow]
    rintro rest - next
    cases before with
    | nil => cases next
    | cons d before => exact no_arrow d List.mem_cons_self (List.cons.inj next).1

def arrows (cs : List Char) : Set (List Char × List Char) := {cut | cs = cut.1 ++ '-' :: '>' :: cut.2}

theorem mem_arrows {cut : List Char × List Char} : cut ∈ arrows cs ↔ cs = cut.1 ++ '-' :: '>' :: cut.2 := Iff.rfl

theorem arrows_nil : arrows [] = ∅ :=
  Set.eq_empty_of_forall_notMem fun _ cut => List.append_ne_nil_of_right_ne_nil _ (List.cons_ne_nil _ _) cut.symm

theorem arrows_arrow (rest : List Char) :
    arrows ('-' :: '>' :: rest) = insert ([], rest) (Prod.map ('-' :: '>' :: ·) id '' arrows rest) := by
  ext ⟨before, after⟩
  simp only [mem_arrows, Set.mem_insert_iff, Set.mem_image, Prod.exists, Prod.map_apply, id_eq,
    Prod.mk.injEq]
  match before with
  | [] => simp [eq_comm]
  | [_] => simp
  | d :: e :: before => grind

theorem arrows_cons (not_here : ∀ rest, c = '-' → cs = '>' :: rest → False) :
    arrows (c :: cs) = Prod.map (c :: ·) id '' arrows cs := by
  ext ⟨before, after⟩
  simp only [mem_arrows, Set.mem_image, Prod.exists, Prod.map_apply, id_eq, Prod.mk.injEq]
  cases before with
  | nil => grind
  | cons d before => grind

theorem encard_arrows (cs : List Char) : (arrows cs).encard = countArrows cs := by
  induction cs using countArrows.induct with
  | case1 rest ih =>
    have before_injective : Function.Injective (('-' :: '>' :: ·) : List Char → List Char) := fun _ _ same =>
      (List.cons.inj (List.cons.inj same).2).2
    have elsewhere : ([], rest) ∉ Prod.map ('-' :: '>' :: ·) id '' arrows rest := by
      rintro ⟨cut, -, same⟩
      cases (Prod.mk.inj same).1
    rw [arrows_arrow, Set.encard_insert_of_notMem elsewhere,
      (before_injective.prodMap Function.injective_id).encard_image, ih, countArrows]
    rfl
  | case2 c cs not_here ih =>
    rw [arrows_cons not_here, (List.cons_injective.prodMap Function.injective_id).encard_image, ih,
      countArrows.eq_2 _ _ not_here]
  | case3 =>
    rw [arrows_nil, Set.encard_empty]
    rfl

theorem countArrows_eq_one_iff :
    countArrows cs = 1 ↔ ∃! cut : List Char × List Char, cs = cut.1 ++ '-' :: '>' :: cut.2 := by
  have one : countArrows cs = 1 ↔ (arrows cs).encard = 1 := by
    rw [encard_arrows, Nat.cast_eq_one]
  rw [one, Set.encard_eq_one]
  exact Set.singleton_iff_unique_mem

end Defeasible.Text
