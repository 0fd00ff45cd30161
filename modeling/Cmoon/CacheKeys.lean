import Cmoon.DecimalText

/-! # Formatted cache keys

`cache_getf`, `cache_setf` and `cache_delf` print a key into a buffer of `MAX_CACHEKEY_LEN` bytes and take as many
bytes of it as the whole text has. Of a longer text the buffer has the first 1023 bytes and a zero; the bytes that
are taken from behind the buffer are what the stack has there. -/
namespace Cmoon.CacheKeys
open DecimalText

def maxCachekeyLen : ℕ := 1024

/-- The key of a text; `stack` is what comes behind the buffer. -/
def formattedKey (stack : ℕ → UInt8) (text : Bytes) : Bytes :=
  if text.length < maxCachekeyLen then text
  else text.take (maxCachekeyLen - 1) ++ 0 :: (List.range (text.length - maxCachekeyLen)).map stack

/-- Two texts that look the same in the buffer, and the same bytes behind it as far as they are taken. -/
def HeldAlike (stack stack' : ℕ → UInt8) (text text' : Bytes) : Prop :=
  text.length = text'.length ∧ text.take (maxCachekeyLen - 1) = text'.take (maxCachekeyLen - 1) ∧
    ∀ i < text.length - maxCachekeyLen, stack i = stack' i

variable {stack stack' : ℕ → UInt8} {text text' : Bytes}

theorem length_formattedKey (stack : ℕ → UInt8) (text : Bytes) : (formattedKey stack text).length = text.length := by
  unfold formattedKey
  split
  · rfl
  · simp only [List.length_append, List.length_take, List.length_cons, List.length_map, List.length_range,
      maxCachekeyLen] at *
    omega

theorem formattedKey_short (h : text.length < maxCachekeyLen) : formattedKey stack text = text := if_pos h

theorem formattedKey_eq_iff :
    formattedKey stack text = formattedKey stack' text' ↔ HeldAlike stack stack' text text' := by
  by_cases hlen : text.length = text'.length
  · by_cases hshort : text.length < maxCachekeyLen
    · have htake : ∀ t : Bytes, t.length < maxCachekeyLen → t.take (maxCachekeyLen - 1) = t :=
        fun t ht => List.take_of_length_le (by omega)
      have hnone : text.length - maxCachekeyLen = 0 := by omega
      rw [formattedKey_short hshort, formattedKey_short (hlen ▸ hshort), HeldAlike, htake text hshort,
        htake text' (hlen ▸ hshort), hnone]
      simp only [Nat.not_lt_zero, false_implies, implies_true, and_true, hlen, true_and]
    · have htake : (text.take (maxCachekeyLen - 1)).length = (text'.take (maxCachekeyLen - 1)).length := by
        rw [List.length_take, List.length_take, hlen]
      rw [formattedKey, formattedKey, if_neg hshort, if_neg (hlen ▸ hshort), ← hlen]
      constructor
      · intro h
        obtain ⟨htext, hrest⟩ := List.append_inj h htake
        exact ⟨hlen, htext, fun i hi => List.map_inj_left.mp (List.cons.inj hrest).2 i (List.mem_range.mpr hi)⟩
      · rintro ⟨-, htext, hstack⟩
        rw [htext, List.map_inj_left.mpr fun i hi => hstack i (List.mem_range.mp hi)]
  · refine iff_of_false (fun h => hlen ?_) fun h => hlen h.1
    rw [← length_formattedKey stack text, h, length_formattedKey]

theorem prefix_formattedKey {start : Bytes} (hlen : start.length < maxCachekeyLen) (h : start <+: text) :
    start <+: formattedKey stack text := by
  unfold formattedKey
  split
  · exact h
  · exact (List.prefix_take_iff.mpr ⟨h, by omega⟩).trans (List.prefix_append _ _)

end Cmoon.CacheKeys
