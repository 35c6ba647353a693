import Defeasible.Text.Lines
import Mathlib.Data.List.Basic

/-! Texts as lines of bytes. No byte of another character looks like a newline, so the lines of the bytes are encodings
of the lines of the text, and each is decoded without the others. -/

namespace Defeasible.Text

variable {c : Char} {cs : List Char} {b : UInt8} {line rest : Bytes}

/-! ### Encodings -/

theorem toNat_of_mem_utf8EncodeChar (mem : b ∈ String.utf8EncodeChar c) : b.toNat = c.toNat ∨ 128 ≤ b.toNat := by
  have value : c.val.toNat = c.toNat := rfl
  revert mem
  fun_cases String.utf8EncodeChar c with
  | case1 v ascii =>
    intro mem
    obtain rfl := List.mem_singleton.1 mem
    rw [UInt8.toNat_ofNat']
    omega
  | case2 v | case3 v | case4 v =>
    intro mem
    refine .inr ?_
    simp only [List.mem_cons, List.not_mem_nil, or_false] at mem
    rcases mem with rfl | rfl | rfl | rfl <;> rw [UInt8.toNat_ofNat'] <;> omega

theorem newline_not_mem_utf8EncodeChar (other : c ≠ '\n') : newline ∉ String.utf8EncodeChar c := by
  intro mem
  rcases toNat_of_mem_utf8EncodeChar mem with same | high
  · exact other (Char.toNat_inj.1 same.symm)
  · exact absurd high (by decide)

theorem encode_ofList (cs : List Char) : encode (String.ofList cs) = cs.flatMap String.utf8EncodeChar := by
  rw [encode, String.toUTF8_eq_toByteArray]
  exact List.toList_data_toByteArray

theorem newline_not_mem_encode (plain : '\n' ∉ cs) : newline ∉ encode (String.ofList cs) := by
  rw [encode_ofList, List.mem_flatMap]
  rintro ⟨c, hc, mem⟩
  exact newline_not_mem_utf8EncodeChar (ne_of_mem_of_not_mem hc plain) mem

theorem encode_append_newline (cs ds : List Char) : encode (String.ofList (cs ++ '\n' :: ds)) =
    encode (String.ofList cs) ++ newline :: encode (String.ofList ds) := by
  simp only [encode_ofList, List.flatMap_append, List.flatMap_cons]
  rfl

theorem encode_eq_nil : encode (String.ofList cs) = [] ↔ cs = [] := by
  rw [encode_ofList, List.flatMap_eq_nil_iff]
  exact ⟨fun none => List.eq_nil_iff_forall_not_mem.2 fun c hc => String.utf8EncodeChar_ne_nil (none c hc),
    fun none c hc => absurd (none ▸ hc) List.not_mem_nil⟩

theorem decode_encode (s : String) : decode (encode s) = some s.toList := by
  have valid : s.toByteArray.IsValidUTF8 := s.isValidUTF8
  have whole : (⟨(encode s).toArray⟩ : ByteArray) = s.toByteArray := by rw [encode, String.toUTF8_eq_toByteArray]
  rw [decode, whole, String.fromUTF8?, dif_pos valid]
  rfl

/-! ### Lines -/

theorem byteLines_cons (b : UInt8) (bs : Bytes) : byteLines (b :: bs) =
    match byteLines bs with
    | [] => [[b]]
    | line :: rest => if b = newline then [b] :: byteLines bs else (b :: line) :: rest := rfl

theorem byteLines_newline (bs : Bytes) : byteLines (newline :: bs) = [newline] :: byteLines bs := by
  rw [byteLines_cons]
  split
  · next none => rw [none]
  · rw [if_pos rfl]

theorem byteLines_append (plain : newline ∉ line) (rest : Bytes) :
    byteLines (line ++ newline :: rest) = (line ++ [newline]) :: byteLines rest := by
  induction line with
  | nil => exact byteLines_newline rest
  | cons b line ih =>
    obtain ⟨other, plain⟩ := List.ne_and_not_mem_of_not_mem_cons plain
    rw [List.cons_append, byteLines_cons, ih plain, List.cons_append]
    exact if_neg (Ne.symm other)

theorem byteLines_of_not_mem (plain : newline ∉ line) (ne_nil : line ≠ []) : byteLines line = [line] := by
  induction line with
  | nil => exact absurd rfl ne_nil
  | cons b line ih =>
    obtain ⟨other, plain⟩ := List.ne_and_not_mem_of_not_mem_cons plain
    cases line with
    | nil => rfl
    | cons b' line =>
      rw [byteLines_cons, ih plain (List.cons_ne_nil b' line)]
      exact if_neg (Ne.symm other)

theorem line_induction {P : List Char → Prop} (last : ∀ line, '\n' ∉ line → P line)
    (next : ∀ line rest, '\n' ∉ line → P rest → P (line ++ '\n' :: rest)) (cs : List Char) : P cs := by
  by_cases mem : '\n' ∈ cs
  · obtain ⟨line, rest, whole, plain⟩ := List.eq_append_cons_of_mem mem
    rw [whole]
    exact next line rest plain (line_induction last next rest)
  · exact last cs mem
termination_by cs.length
decreasing_by
  rw [whole, List.length_append, List.length_cons]
  omega

end Defeasible.Text
