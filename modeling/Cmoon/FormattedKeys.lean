import Cmoon.CacheKeys
import Cmoon.CacheOperations

/-! # Calls with a formatted key

`cache_getf`, `cache_setf` and `cache_delf` take as many bytes of the buffer as `vsnprintf` answers, which is the length
of the whole text. -/
namespace Cmoon.FormattedKeys
open DecimalText DoublyLinkedLists CacheOperations CacheKeys OneAtATimeHash

/-- What `vsnprintf` writes into a buffer, and what it answers: an `int`, or -1 when the length is none. -/
def vsnprintf (size : ℕ) (text : Bytes) : Bytes × ℤ :=
  (text.take (size - 1) ++ [0], if text.length < 2 ^ 31 then text.length else -1)

/-- `(size_t)r` -/
def ksize (text : Bytes) : ℕ := ((vsnprintf maxCachekeyLen text).2 % 2 ^ 64).toNat

/-- The first `ksize` bytes of the buffer; a fault when not all of these have been written. -/
def heldKey (text : Bytes) : Option Bytes :=
  if ksize text ≤ (vsnprintf maxCachekeyLen text).1.length then
    some ((vsnprintf maxCachekeyLen text).1.take (ksize text))
  else none

def withKey {β : Type} (op : Bytes → Option β) (text : Bytes) : Option β := (heldKey text).bind op

def cacheGetf (cd : Cache) (now : ℤ) (text : Bytes) : Option (Cache × Option Bytes) := withKey (cacheGet cd now) text

def cacheSetf (cd : Cache) (now : ℤ) (val : Bytes) (timeout : ℤ) (m : SetMallocs) (text : Bytes) : Option (Cache × ℤ) :=
  withKey (fun key => cacheSet cd now key val timeout m) text

def cacheDelf (cd : Cache) (text : Bytes) : Option (Cache × ℤ) := withKey (cacheDel cd) text

variable {text text' key : Bytes}

theorem heldKey_eq_some_iff : heldKey text = some key ↔
    text.length ≤ maxCachekeyLen ∧ key = (text.take (maxCachekeyLen - 1) ++ [0]).take text.length := by
  have hlen : (vsnprintf maxCachekeyLen text).1.length = min 1023 text.length + 1 := by
    simp [vsnprintf, maxCachekeyLen]
  unfold heldKey
  rw [hlen]
  by_cases hint : text.length < 2 ^ 31
  · have hksize : ksize text = text.length := by
      unfold ksize vsnprintf
      rw [if_pos hint]
      omega
    rw [hksize]
    unfold maxCachekeyLen
    split
    · rw [Option.some.injEq, eq_comm]
      exact (and_iff_right (by omega)).symm
    · exact iff_of_false (Option.some_ne_none _).symm fun h => absurd h.1 (by omega)
  · have hksize : ksize text = 2 ^ 64 - 1 := by
      unfold ksize vsnprintf
      rw [if_neg hint]
      rfl
    rw [hksize, if_neg (by omega)]
    unfold maxCachekeyLen
    exact iff_of_false (Option.some_ne_none _).symm fun h => absurd h.1 (by omega)

theorem heldKey_eq_some_iff_formattedKey : heldKey text = some key ↔ ∀ stack, formattedKey stack text = key := by
  rw [heldKey_eq_some_iff]
  rcases lt_trichotomy text.length maxCachekeyLen with hlen | hlen | hlen
  · have hall : text.take (maxCachekeyLen - 1) = text := List.take_of_length_le (by omega)
    rw [hall, List.take_left, and_iff_right hlen.le]
    simp only [formattedKey_short hlen, forall_const, eq_comm]
  · have hkey : ∀ stack, formattedKey stack text = text.take (maxCachekeyLen - 1) ++ [0] := by
      intro stack
      unfold formattedKey
      rw [if_neg (by omega), hlen, Nat.sub_self]
      rfl
    have hall : (text.take (maxCachekeyLen - 1) ++ [0]).length ≤ text.length := by
      rw [List.length_append, List.length_take, List.length_singleton, hlen, maxCachekeyLen]
      omega
    rw [List.take_of_length_le hall, and_iff_right hlen.le]
    simp only [hkey, forall_const, eq_comm]
  · refine iff_of_false (fun h => absurd h.1 (not_le.mpr hlen)) fun h => ?_
    have hsame := (h fun _ => 0).trans (h fun _ => 1).symm
    have hstack := (formattedKey_eq_iff.mp hsame).2.2 0 (by omega)
    cases hstack

/-- Two texts have one key when they are equal, or as long as the buffer and equal but for the last byte. -/
theorem heldKey_eq_iff (h : text.length ≤ maxCachekeyLen) (h' : text'.length ≤ maxCachekeyLen) :
    heldKey text = heldKey text' ↔ text.length = text'.length ∧ text.take (maxCachekeyLen - 1) =
      text'.take (maxCachekeyLen - 1) := by
  have hkey : ∀ {text : Bytes}, text.length ≤ maxCachekeyLen →
      heldKey text = some (formattedKey (fun _ => 0) text) := by
    intro text h
    obtain ⟨key, hkey⟩ : ∃ key, heldKey text = some key := ⟨_, heldKey_eq_some_iff.mpr ⟨h, rfl⟩⟩
    rw [hkey, heldKey_eq_some_iff_formattedKey.mp hkey]
  rw [hkey h, hkey h', Option.some.injEq, formattedKey_eq_iff]
  exact ⟨fun hheld => ⟨hheld.1, hheld.2.1⟩, fun hheld => ⟨hheld.1, hheld.2, fun _ _ => rfl⟩⟩

variable {cd : Cache} {heap : Heap Addr Entry} {fuel : ℕ} {p : Option Addr} {a : Addr}

theorem key_of_findFrom (h : findFrom heap key fuel p = some (some a)) : ∃ nd, heap a = some nd ∧ nd.val.key = key := by
  induction fuel generalizing p with
  | zero => cases p <;> cases h
  | succ fuel ih =>
    cases p with
    | none => cases h
    | some q =>
      obtain ⟨nd, hnd, h⟩ := Option.bind_eq_some_iff.mp h
      split at h
      · exact ih h
      · split at h
        · rename_i hkey
          obtain rfl := Option.some.inj (Option.some.inj h)
          exact ⟨nd, hnd, hkey.symm⟩
        · exact ih h

theorem key_of_findInCache (h : findInCache cd key = some (some a)) : ∃ nd, cd.heap a = some nd ∧ nd.val.key = key := by
  obtain ⟨⟨i, c⟩, -, h⟩ := Option.bind_eq_some_iff.mp h
  exact key_of_findFrom h

/-- The key is a part of what has been written, and the same entry is found exactly for the same text. -/
structure Consistent (text text' : Bytes) : Prop where
  bounds : ∃ key, key <+: (vsnprintf maxCachekeyLen text).1 ∧
    ∀ (β : Type) (op : Bytes → Option β), withKey op text = op key
  bounds' : ∃ key, key <+: (vsnprintf maxCachekeyLen text').1 ∧
    ∀ (β : Type) (op : Bytes → Option β), withKey op text' = op key
  same : ∀ cd a, withKey (findInCache cd) text = some (some a) →
    (withKey (findInCache cd) text' = some (some a) ↔ text = text')

/-- Neither text is longer than the buffer, and they are not as long as it and different in their last byte only. -/
def Fitting (text text' : Bytes) : Prop :=
  text.length ≤ maxCachekeyLen ∧ text'.length ≤ maxCachekeyLen ∧
    (text.length = maxCachekeyLen → text'.length = maxCachekeyLen →
      text.take (maxCachekeyLen - 1) = text'.take (maxCachekeyLen - 1) → text = text')

/-- The bytes that are used have been written if and only if the text is not longer than the buffer. -/
theorem bounds_iff : (∃ key, key <+: (vsnprintf maxCachekeyLen text).1 ∧
    ∀ (β : Type) (op : Bytes → Option β), withKey op text = op key) ↔ text.length ≤ maxCachekeyLen := by
  constructor
  · rintro ⟨key, -, hop⟩
    have hkey : heldKey text = some key := by
      rw [← hop Bytes some, withKey]
      cases heldKey text <;> rfl
    exact (heldKey_eq_some_iff.mp hkey).1
  · intro h
    have hkey := heldKey_eq_some_iff.mpr ⟨h, rfl⟩
    refine ⟨_, List.take_prefix text.length (text.take (maxCachekeyLen - 1) ++ [0]), fun β op => ?_⟩
    rw [withKey, hkey]
    rfl

def oneEntry (key : Bytes) : Cache where
  numobjs := 4
  hashlen := 1
  chainlen := 4
  table := [⟨1, some 0, some 0⟩]
  heap := Function.update (fun _ => none) 0 (some ⟨⟨key, [], 0⟩, none, none⟩)

theorem findInCache_oneEntry (key : Bytes) : findInCache (oneEntry key) key = some (some 0) := by
  have hbucket : bucket 1 key = 0 := Nat.mod_one _
  have hchain : chainFor (oneEntry key) key = some (0, ⟨1, some 0, some 0⟩) := by
    unfold chainFor
    rw [if_neg (show (oneEntry key).hashlen ≠ 0 from one_ne_zero)]
    change (([⟨1, some 0, some 0⟩] : List CacheChain)[bucket 1 key]?).map (fun c => (bucket 1 key, c)) = _
    rw [hbucket]
    rfl
  unfold findInCache
  rw [hchain]
  change findFrom (oneEntry key).heap key 1 (some 0) = some (some 0)
  simp [findFrom, oneEntry]

theorem Consistent.fitting (h : Consistent text text') : Fitting text text' := by
  obtain ⟨hbounds, hbounds', hsame⟩ := h
  have h := bounds_iff.mp hbounds
  have h' := bounds_iff.mp hbounds'
  refine ⟨h, h', fun hlen hlen' htake => ?_⟩
  obtain ⟨key, hkey⟩ : ∃ key, heldKey text = some key := ⟨_, heldKey_eq_some_iff.mpr ⟨h, rfl⟩⟩
  have hkey' : heldKey text' = some key := ((heldKey_eq_iff h h').mpr ⟨hlen.trans hlen'.symm, htake⟩).symm.trans hkey
  have hfound : ∀ {text}, heldKey text = some key → withKey (findInCache (oneEntry key)) text = some (some 0) := by
    intro text hkey
    rw [withKey, hkey, Option.bind_some, findInCache_oneEntry]
  exact (hsame (oneEntry key) 0 (hfound hkey)).mp (hfound hkey')

theorem Fitting.consistent (h : Fitting text text') : Consistent text text' := by
  obtain ⟨h, h', hlast⟩ := h
  refine ⟨bounds_iff.mpr h, bounds_iff.mpr h', fun cd a hfound => ⟨fun hfound' => ?_, ?_⟩⟩
  · obtain ⟨key, hkey, hfound⟩ := Option.bind_eq_some_iff.mp hfound
    obtain ⟨key', hkey', hfound'⟩ := Option.bind_eq_some_iff.mp hfound'
    obtain ⟨nd, hnd, rfl⟩ := key_of_findInCache hfound
    obtain ⟨nd', hnd', rfl⟩ := key_of_findInCache hfound'
    rw [hnd] at hnd'
    obtain rfl := Option.some.inj hnd'
    obtain ⟨hlen, htake⟩ := (heldKey_eq_iff h h').mp (hkey.trans hkey'.symm)
    rcases h.eq_or_lt with hfull | hshort
    · exact hlast hfull (hlen ▸ hfull) htake
    · rwa [List.take_of_length_le (by omega), List.take_of_length_le (by omega)] at htake
  · rintro rfl
    exact hfound

/-- **Formatted keys are used within bounds and consistently** if and only if the texts fit. -/
theorem consistent_iff (text text' : Bytes) : Consistent text text' ↔ Fitting text text' :=
  ⟨Consistent.fitting, Fitting.consistent⟩

def longText (last : UInt8) : Bytes := List.replicate 1023 97 ++ [last]

/-- Two texts that are different in the byte that is not kept. -/
theorem not_consistent_longText : ¬ Consistent (longText 97) (longText 98) := by
  intro h
  have hlen : ∀ last, (longText last).length = maxCachekeyLen := by
    intro last
    rw [longText, List.length_append, List.length_replicate]
    rfl
  have htake : ∀ last, (longText last).take (maxCachekeyLen - 1) = List.replicate 1023 97 :=
    fun last => List.take_left' List.length_replicate
  have hsame := h.fitting.2.2 (hlen 97) (hlen 98) ((htake 97).trans (htake 98).symm)
  have hlast := List.append_cancel_left hsame
  revert hlast
  decide

end Cmoon.FormattedKeys
