import OperandCodec.Json.Parser
import OperandCodec.Json.Skip
import OperandCodec.Proofs.Json.Outcomes
/-!
# Passing over numbers and strings

A number that is read is passed over as far as it was read
(`leaves_of_numeral`), and so is a string (`leaves_of_stringBody`). The
number counts for its digits only when it is passed over, and two escapes
that stand for one character are passed over one by one.
-/

namespace OperandCodec
namespace Json

variable {s t : List Char}

/-! ## Numbers -/

section Numbers

variable {negative : Bool} {significand : Nat} {e : Int} {n : JsonNumber}

theorem leaves_skipDigits (h : (digits s).1 ≠ []) : Leaves (skipDigits s) (digits s).2.1 := by
  cases s with
  | nil => exact absurd rfl h
  | cons c cs =>
    have hc : c.isDigit := by
      by_contra hc
      simp [digits, hc] at h
    simp only [skipDigits, hc, if_true]
    simp [leaves_ok_iff, digits, Tail.behind, Tail.dropWhile, hc]

theorem leaves_skipExponent_iff :
    Leaves (skipExponent s) t ↔ Leaves (skipDigits (exponentSign s).2.1) t := by
  cases s with
  | nil => rfl
  | cons c cs =>
    by_cases hplus : c = '+'
    · subst hplus
      exact leaves_map_iff fun _ => rfl
    · by_cases hminus : c = '-'
      · subst hminus
        exact leaves_map_iff fun _ => rfl
      · have hsign : exponentSign (c :: cs) = (false, .all (c :: cs)) :=
          exponentSign.eq_3 _ (fun _ h => hplus (List.cons.inj h).1)
            fun _ h => hminus (List.cons.inj h).1
        have hdigits : skipExponent (c :: cs) = skipDigits (c :: cs) := by
          simp [skipExponent, hplus, hminus]
        rw [hsign, hdigits]
        rfl

theorem leaves_of_exponentPart (h : Gives (exponentPart negative significand e s) n t) :
    Leaves (skipExponent s) t := by
  rw [leaves_skipExponent_iff]
  unfold exponentPart at h
  simp only at h
  split at h
  · exact absurd h not_gives_error
  · rename_i hds
    have hdigits : (digits (exponentSign s).2.1).1 ≠ [] := by
      simpa using hds
    suffices hrest : (digits (exponentSign s).2.1).2.1 = t by
      rw [← hrest]
      exact leaves_skipDigits hdigits
    split at h
    · exact (gives_bind_rest_iff.1 h).2
    split at h
    · exact (gives_bind_rest_iff.1 h).2
    · exact (gives_bind_rest_iff.1 h).2

theorem leaves_of_realTail (h : Gives (realTail negative significand e s) n t) :
    Leaves (skipExponent? s) t := by
  cases s with
  | nil => exact leaves_ok_iff.2 (gives_bind_rest_iff.1 h).2
  | cons c u =>
    rw [realTail] at h
    rw [skipExponent?]
    by_cases hc : c = 'e' ∨ c = 'E'
    · rw [if_pos hc] at h ⊢
      obtain ⟨_, hn, rfl⟩ := (gives_bind_ok_iff (g := id) fun _ _ => ⟨rfl, rfl⟩).1 h
      exact (leaves_of_exponentPart hn).map fun _ => rfl
    · rw [if_neg hc] at h ⊢
      exact leaves_ok_iff.2 (gives_bind_rest_iff.1 h).2

theorem leaves_of_fractionPart (h : Gives (fractionPart negative significand e s) n t) :
    ∃ u, Leaves (skipDigits s) u ∧ Leaves (skipExponent? u) t := by
  unfold fractionPart at h
  simp only at h
  split at h
  · exact absurd h not_gives_error
  · rename_i hds
    have hdigits : (digits s).1 ≠ [] := by
      simpa using hds
    obtain ⟨_, hn, rfl⟩ := (gives_bind_ok_iff (g := id) fun _ _ => ⟨rfl, rfl⟩).1 h
    exact ⟨_, leaves_skipDigits hdigits, leaves_of_realTail hn⟩

theorem leaves_of_integerTail {left : Nat}
    (h : Gives (integerTail negative significand left s) n t) : Leaves (skipFraction? s) t := by
  by_cases hpoint : ∃ u, s = '.' :: u
  · obtain ⟨u, rfl⟩ := hpoint
    rw [integerTail] at h
    rw [skipFraction?]
    obtain ⟨_, hn, rfl⟩ := (gives_bind_ok_iff (g := id) fun _ _ => ⟨rfl, rfl⟩).1 h
    obtain ⟨w, hw, ht⟩ := leaves_of_fractionPart hn
    refine (leaves_bind_iff (C := fun w => Leaves (skipExponent? w) t) fun r => ?_).2 ⟨w, hw, ht⟩
    exact leaves_bind_ok_iff fun _ => rfl
  · have hother : ∀ u, s = '.' :: u → False := fun u hu => hpoint ⟨u, hu⟩
    rw [integerTail.eq_2 _ _ _ _ hother] at h
    rw [skipFraction?.eq_2 _ hother]
    split at h
    · rename_i hinteger
      obtain ⟨-, rfl⟩ := gives_ok_iff.1 h
      cases s with
      | nil => exact leaves_ok_iff.2 rfl
      | cons c u =>
        have hc : ¬ (c = 'e' ∨ c = 'E') := by
          simpa using hinteger.2
        rw [skipExponent?, if_neg hc]
        exact leaves_ok_iff.2 rfl
    · exact leaves_of_realTail h

theorem leaves_of_unsignedNumeral (h : Gives (unsignedNumeral negative s) n t) :
    Leaves (skipNumber s) t := by
  unfold unsignedNumeral at h
  split at h
  · exact absurd h not_gives_error
  · rename_i c cs
    split at h
    · exact absurd h not_gives_error
    · rename_i hc
      simp only [Bool.or_eq_true, Bool.not_eq_true', Bool.and_eq_true, decide_eq_true_eq,
        not_or, Bool.not_eq_false] at hc
      obtain ⟨_, hn, rfl⟩ := (gives_bind_ok_iff (g := id) fun _ _ => ⟨rfl, rfl⟩).1 h
      have hdigits : Leaves (skipDigits (c :: cs)) (digits cs).2.1 := by
        simp only [skipDigits, hc.1, if_true]
        exact leaves_ok_iff.2 rfl
      simp only [skipNumber, if_neg hc.2]
      refine (leaves_bind_iff (C := fun u => Leaves (skipFraction? u) t) fun r => ?_).2
        ⟨_, hdigits, leaves_of_integerTail hn⟩
      exact leaves_bind_ok_iff fun _ => rfl

theorem leaves_of_numeral {c : Char} {cs : List Char} (h : Gives (numeral (c :: cs)) n t) :
    if c = '-' then Leaves (skipNumber cs) t else Leaves (skipNumber (c :: cs)) t := by
  split
  · rename_i hc
    subst hc
    obtain ⟨_, hn, rfl⟩ := (gives_map_iff (g := id) fun _ _ => ⟨rfl, rfl⟩).1 h
    exact leaves_of_unsignedNumeral hn
  · rename_i hc
    rw [numeral.eq_2 _ fun _ h => hc (List.cons.inj h).1] at h
    exact leaves_of_unsignedNumeral h

end Numbers

/-! ## Strings -/

section Characters

variable {esc : Reader Char} {cs xs : List Char}

theorem gives_characters_quote :
    Gives (characters esc ('"' :: cs)) xs t ↔ [] = xs ∧ cs = t := by
  rw [characters, if_pos rfl]
  exact gives_ok_iff

theorem gives_characters_escape : Gives (characters esc ('\\' :: cs)) xs t ↔
    ∃ x r, Gives (esc cs) x r ∧ ∃ ys, Gives (characters esc r) ys t ∧ x :: ys = xs := by
  rw [characters, if_neg (by decide), if_pos rfl]
  refine gives_bind_iff fun x r => ?_
  exact gives_bind_ok_iff (g := fun ys => x :: ys) fun _ _ => ⟨rfl, rfl⟩

theorem gives_characters_plain {c : Char} (hquote : c ≠ '"') (hescape : c ≠ '\\') :
    Gives (characters esc (c :: cs)) xs t ↔
      ¬ c.toNat < 0x20 ∧ ∃ ys, Gives (characters esc cs) ys t ∧ c :: ys = xs := by
  rw [characters, if_neg hquote, if_neg hescape]
  split
  · rename_i hcontrol
    simpa [hcontrol] using not_gives_error
  · rename_i hcontrol
    rw [gives_bind_ok_iff (g := fun ys => c :: ys) fun _ _ => ⟨rfl, rfl⟩]
    exact (and_iff_right hcontrol).symm

end Characters

theorem gives_of_trailing {m : Nat} (h : Gives (trailing s) m t) :
    ∃ u, s = '\\' :: 'u' :: u ∧ Gives (hex4 u) m t := by
  unfold trailing at h
  split at h
  · exact absurd h not_gives_error
  · exact absurd h not_gives_error
  · rename_i u
    obtain ⟨hlt, he⟩ := h
    obtain ⟨⟨k, r⟩, hk, he⟩ := bind_eq_ok_iff.1 he
    simp only at he
    split at he
    · cases he
      exact ⟨u, rfl, r.2, hk⟩
    · cases he
  · exact absurd h not_gives_error

/-- An escape is passed over in one step, or in two where it is a pair of code units. -/
theorem skipEscape_of_escape {x : Char} (h : Gives (escape s) x t) :
    ∃ y, Gives (skipEscape s) y t ∨
      ∃ u z, Gives (skipEscape s) y ('\\' :: u) ∧ Gives (skipEscape u) z t := by
  cases s with
  | nil => exact absurd h not_gives_error
  | cons c cs =>
    have hunit : ∀ {cs r : List Char} {m : Nat}, Gives (hex4 cs) m r →
        Gives (skipEscape ('u' :: cs)) 'u' r := by
      intro cs r m hm
      exact (gives_map_iff (g := fun _ => 'u') fun _ _ => ⟨rfl, rfl⟩).2 ⟨m, hm, rfl⟩
    rw [escape] at h
    split at h
    · rename_i hc
      subst hc
      obtain ⟨x, hx, rfl⟩ := (gives_map_iff (g := id) fun _ _ => ⟨rfl, rfl⟩).1 h
      obtain ⟨hlt, he⟩ := hx
      obtain ⟨⟨m, r⟩, hm, he⟩ := bind_eq_ok_iff.1 he
      simp only at he
      split at he
      · cases he
      split at he
      · obtain ⟨⟨k, r'⟩, hk, he⟩ := bind_eq_ok_iff.1 he
        have hrest : r'.1 = t := congrArg (fun p => p.2.1) (Except.ok.inj he)
        subst hrest
        obtain ⟨u, hu, hk⟩ := gives_of_trailing ⟨r'.2, hk⟩
        refine ⟨'u', .inr ⟨'u' :: u, 'u', ?_, hunit hk⟩⟩
        rw [← hu]
        exact hunit ⟨r.2, hm⟩
      · cases he
        exact ⟨'u', .inl (hunit ⟨_, hm⟩)⟩
    · rename_i hc
      split at h
      · rename_i hx
        obtain ⟨-, rfl⟩ := gives_ok_iff.1 h
        refine ⟨c, .inl ?_⟩
        rw [skipEscape, if_neg hc, if_pos (by simp [hx])]
        exact gives_ok_iff.2 ⟨rfl, rfl⟩
      · exact absurd h not_gives_error

theorem skipped_of_characters {xs : List Char} (h : Gives (characters escape s) xs t) :
    ∃ ys, Gives (characters skipEscape s) ys t := by
  obtain ⟨n, hn⟩ : ∃ n, s.length = n := ⟨_, rfl⟩
  induction n using Nat.strongRecOn generalizing s xs with
  | _ n ih =>
    cases s with
    | nil =>
      rw [characters] at h
      exact absurd h not_gives_error
    | cons c cs =>
      by_cases hquote : c = '"'
      · subst hquote
        obtain ⟨-, rfl⟩ := gives_characters_quote.1 h
        exact ⟨[], gives_characters_quote.2 ⟨rfl, rfl⟩⟩
      by_cases hescape : c = '\\'
      · subst hescape
        obtain ⟨x, r, hx, ys, hys, -⟩ := gives_characters_escape.1 h
        have hlength := hx.length_lt
        rw [List.length_cons] at hn
        obtain ⟨zs, hzs⟩ := ih r.length (by omega) hys rfl
        obtain ⟨y, hy | ⟨u, z, hy, hz⟩⟩ := skipEscape_of_escape hx
        · exact ⟨y :: zs, gives_characters_escape.2 ⟨y, r, hy, zs, hzs, rfl⟩⟩
        · exact ⟨y :: z :: zs, gives_characters_escape.2 ⟨y, _, hy, z :: zs,
            gives_characters_escape.2 ⟨z, r, hz, zs, hzs, rfl⟩, rfl⟩⟩
      · obtain ⟨hcontrol, ys, hys, -⟩ := (gives_characters_plain hquote hescape).1 h
        obtain ⟨zs, hzs⟩ := ih cs.length (by simp [← hn]) hys rfl
        exact ⟨c :: zs, (gives_characters_plain hquote hescape).2 ⟨hcontrol, zs, hzs, rfl⟩⟩

theorem leaves_of_stringBody {x : String} (h : Gives (stringBody s) x t) :
    Leaves (skipString s) t := by
  obtain ⟨xs, hxs, -⟩ := (gives_map_iff (g := String.ofList) fun _ _ => ⟨rfl, rfl⟩).1 h
  obtain ⟨ys, h, he⟩ := skipped_of_characters hxs
  exact ⟨h, by rw [skipString, he]; rfl⟩

end Json
end OperandCodec
