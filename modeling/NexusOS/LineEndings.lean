import NexusOS.ImagePacker

/-!
The text treatment of `make_initrd`: CR LF becomes LF, and a text that does not
end in LF gets one. A CR before a CR LF, or at the end, is left with an LF behind
it, so the result can hold the pair that was to be removed. It does exactly in
these two cases, and in the others it is a fixed point.
-/

namespace NexusOS.LineEndings

open ImagePacker

def crlf : Bytes := [0x0D, 0x0A]

def crCrlf : Bytes := [0x0D, 0x0D, 0x0A]

/-- No CR that the treatment leaves in front of an LF. -/
def Clean (raw : Bytes) : Prop := ¬ crCrlf <:+: raw ∧ raw.getLast? ≠ some 0x0D

theorem crlf_starts (b : UInt8) (rest : Bytes) :
    crlf <+: b :: rest ↔ b = 0x0D ∧ rest.head? = some 0x0A := by
  rw [crlf, List.cons_prefix_cons]
  cases rest with
  | nil => simp
  | cons c rest => simp [eq_comm]

theorem cr_crlf_starts (b : UInt8) (rest : Bytes) :
    crCrlf <+: b :: rest ↔ b = 0x0D ∧ crlf <+: rest := by
  rw [crCrlf, List.cons_prefix_cons, eq_comm]
  rfl

theorem replace_other {b : UInt8} {rest : Bytes} (other : ¬ crlf <+: b :: rest) :
    replaceCrLf (b :: rest) = b :: replaceCrLf rest := by
  apply replaceCrLf.eq_2
  rintro more rfl rfl
  exact other ⟨more, rfl⟩

-- The induction that the replacement itself follows.
theorem replace_induction {holds : Bytes → Prop} (empty : holds [])
    (pair : ∀ rest, holds rest → holds (0x0D :: 0x0A :: rest))
    (other : ∀ b rest, ¬ crlf <+: b :: rest → holds rest → holds (b :: rest)) (raw : Bytes) :
    holds raw := by
  induction raw using replaceCrLf.induct with
  | case1 rest ih => exact pair rest ih
  | case2 b rest apart ih =>
      apply other b rest _ ih
      rw [crlf_starts]
      rintro ⟨same, next⟩
      cases rest with
      | nil => cases next
      | cons c rest => exact apart rest same (congrArg (· :: rest) (Option.some.inj next))
  | case3 => exact empty

theorem replace_head (raw : Bytes) :
    (replaceCrLf raw).head? = some 0x0A ↔ raw.head? = some 0x0A ∨ crlf <+: raw := by
  induction raw using replace_induction with
  | empty => simp [replaceCrLf, crlf]
  | pair rest _ => exact iff_of_true rfl (.inr ⟨rest, rfl⟩)
  | other b rest apart _ => simp [replace_other apart, apart]

/-- The pair is left behind by a CR in front of it, and by nothing else. -/
theorem replace_crlf_iff (raw : Bytes) : crlf <:+: replaceCrLf raw ↔ crCrlf <:+: raw := by
  induction raw using replace_induction with
  | empty => simp [replaceCrLf, crlf, crCrlf]
  | pair rest ih =>
      change crlf <:+: 0x0A :: replaceCrLf rest ↔ _
      simp [List.infix_cons_iff, crlf_starts, cr_crlf_starts, ih]
  | other b rest apart ih =>
      rw [crlf_starts] at apart
      rw [replace_other (by rwa [crlf_starts]), List.infix_cons_iff, List.infix_cons_iff,
        crlf_starts, cr_crlf_starts, ih, replace_head]
      -- in front of this LF there is no CR
      have next : b = 0x0D → ¬ rest.head? = some 0x0A := fun same head => apart ⟨same, head⟩
      tauto

theorem replace_empty_iff (raw : Bytes) : replaceCrLf raw = [] ↔ raw = [] := by
  induction raw using replace_induction with
  | empty => exact iff_of_true rfl rfl
  | pair rest _ => exact iff_of_false (List.cons_ne_nil _ _) (List.cons_ne_nil _ _)
  | other b rest apart _ =>
      rw [replace_other apart]
      exact iff_of_false (List.cons_ne_nil _ _) (List.cons_ne_nil _ _)

theorem last_cons (b c : UInt8) (rest : Bytes) :
    (b :: rest).getLast? = some c ↔ rest = [] ∧ b = c ∨ rest.getLast? = some c := by
  cases rest with
  | nil => simp
  | cons d rest => simp [List.getLast?_cons_cons]

theorem replace_last (raw : Bytes) :
    (replaceCrLf raw).getLast? = some 0x0D ↔ raw.getLast? = some 0x0D := by
  induction raw using replace_induction with
  | empty => exact Iff.rfl
  | pair rest ih =>
      change (0x0A :: replaceCrLf rest).getLast? = _ ↔ _
      simp [last_cons, ih]
  | other b rest apart ih => rw [replace_other apart, last_cons, last_cons, replace_empty_iff, ih]

-- An LF put behind a text makes the pair if the text ends in CR.
theorem crlf_behind (data : Bytes) :
    crlf <:+: data ++ [0x0A] ↔ crlf <:+: data ∨ data.getLast? = some 0x0D := by
  induction data with
  | nil => simp [List.infix_cons_iff, crlf]
  | cons b rest ih =>
      have head : (rest ++ [0x0A]).head? = some 0x0A ↔ rest = [] ∨ rest.head? = some 0x0A := by
        cases rest <;> simp
      rw [List.cons_append, List.infix_cons_iff, List.infix_cons_iff, crlf_starts, crlf_starts,
        last_cons, ih, head]
      tauto

theorem normalise_last (raw : Bytes) : (normalise raw).getLast? = some 0x0A := by
  rw [normalise, endLine]
  split
  · assumption
  · exact List.getLast?_concat

theorem normalise_crlf_iff (raw : Bytes) : crlf <:+: normalise raw ↔ ¬ Clean raw := by
  rw [normalise, endLine, Clean, not_and_or, not_not, not_not, ← replace_last]
  by_cases ended : (replaceCrLf raw).getLast? = some 0x0A
  · have noReturn : (replaceCrLf raw).getLast? ≠ some 0x0D := by
      rw [ended]
      decide
    rw [if_pos ended, replace_crlf_iff]
    exact (or_iff_left noReturn).symm
  · rw [if_neg ended, crlf_behind, replace_crlf_iff]

theorem replace_free {data : Bytes} (free : ¬ crlf <:+: data) : replaceCrLf data = data := by
  induction data with
  | nil => rfl
  | cons b rest ih =>
      rw [List.infix_cons_iff, not_or] at free
      rw [replace_other free.1, ih free.2]

theorem normalise_fixed {data : Bytes} (free : ¬ crlf <:+: data)
    (ended : data.getLast? = some 0x0A) : normalise data = data := by
  rw [normalise, replace_free free, endLine, if_pos ended]

end NexusOS.LineEndings
