import Cmoon.PackedMembers

/-! # Damaged records

What is found in the cache is unpacked as it is. Of a buffer only the length of the fixed part is checked; where the
strings behind it end is looked for in the memory, wherever the buffer ends. -/
namespace Cmoon.DamagedRecords
open DecimalText ByteBuffers StructImages
open PackedMembers (GNode Ret)

/-- `file_t`, for whatever its strings are. -/
structure File (σ : Type) where
  id : BitVec 32
  aid : BitVec 32
  pid : BitVec 32
  uid : BitVec 32
  gid : BitVec 32
  mode : BitVec 32
  reqtype : BitVec 32
  lmttype : BitVec 32
  name : σ
  remark : σ
  uri : σ
  dataer : σ
  render : σ
  intime : σ
  uptime : σ

/-- `tjt_t` -/
structure Tjt (σ : Type) where
  id : BitVec 32
  aid : BitVec 32
  fid : BitVec 32
  uid : BitVec 32
  img : σ
  imgurl : σ
  exp : σ
  intime : σ
  uptime : σ

/-- The place behind what has been unpacked, and the end of what has been looked at. -/
structure Cursor where
  next : ℕ
  seen : ℕ

/-- The loop of `STRUCT_UNPACK_STR` over a string from `p` on -/
def skip (inlen : ℕ) : ℕ → Bytes → ℕ
  | p, [] => p
  | p, _ :: t => if p ≤ inlen then skip inlen (p + 1) t else p

/-- `STRUCT_UNPACK_STR` with the pointer `a` of the image. `mem` is what can be read from the buffer on; none when more
is read. -/
def unpackStrWithin (mem : Bytes) (inlen : ℕ) (a : Addr) (c : Cursor) : Option (Field × Cursor) :=
  match mem[c.next]? with
  | none => none
  | some x =>
    if x = 0 then some (.kept a, ⟨c.next + 1, max c.seen (c.next + 1)⟩)
    else (cstrAt mem c.next).map fun t =>
      (.fresh t, ⟨skip inlen c.next t + 1, max c.seen (c.next + t.length + 1)⟩)

/-- As many strings one after the other, whose pointers are in the image from `off` on. -/
def unpackStrs (mem : Bytes) (inlen : ℕ) : ℕ → ℕ → Cursor → Option (List Field × Cursor)
  | 0, _, c => some ([], c)
  | k + 1, off, c => do
    let a ← addrAt mem off
    let (f, c) ← unpackStrWithin mem inlen a c
    let (fs, c) ← unpackStrs mem inlen k (off + 8) c
    some (f :: fs, c)

def intsAt (mem : Bytes) : ℕ → ℕ → Option (List (BitVec 32))
  | 0, _ => some []
  | k + 1, off => do
    let x ← intAt mem off
    let xs ← intsAt mem k (off + 4)
    some (x :: xs)

/-- A structure of so many `int`s, an even number, and so many strings. -/
def structUnpack (ints strs : ℕ) (mem : Bytes) (inlen : ℕ) :
    Option (Ret (List (BitVec 32) × List Field × Cursor)) :=
  if inlen < 4 * ints + 8 * strs then some .inpute
  else do
    let xs ← intsAt mem ints 0
    let (fs, c) ← unpackStrs mem inlen strs (4 * ints) ⟨4 * ints + 8 * strs, 4 * ints + 8 * strs⟩
    some (.ok (xs, fs, c))

def assemble {α : Type} (build : List (BitVec 32) → List Field → Option α) :
    Ret (List (BitVec 32) × List Field × Cursor) → Option (Ret (α × Cursor))
  | .inpute => some .inpute
  | .ok (xs, fs, c) => (build xs fs).map fun x => .ok (x, c)

def File.build : List (BitVec 32) → List Field → Option (File Field)
  | [id, aid, pid, uid, gid, mode, reqtype, lmttype], [name, remark, uri, dataer, render, intime, uptime] =>
    some ⟨id, aid, pid, uid, gid, mode, reqtype, lmttype, name, remark, uri, dataer, render, intime, uptime⟩
  | _, _ => none

def buildGNode : List (BitVec 32) → List Field → Option (GNode Field)
  | [uid, gid, mode, status], [intime, uptime] => some ⟨uid, gid, mode, status, intime, uptime⟩
  | _, _ => none

def Tjt.build : List (BitVec 32) → List Field → Option (Tjt Field)
  | [id, aid, fid, uid], [img, imgurl, exp, intime, uptime] =>
    some ⟨id, aid, fid, uid, img, imgurl, exp, intime, uptime⟩
  | _, _ => none

def fileUnpack (mem : Bytes) (inlen : ℕ) : Option (Ret (File Field × Cursor)) :=
  (structUnpack 8 7 mem inlen).bind (assemble File.build)

def gnodeUnpack (mem : Bytes) (inlen : ℕ) : Option (Ret (GNode Field × Cursor)) :=
  (structUnpack 4 2 mem inlen).bind (assemble buildGNode)

def tjtUnpack (mem : Bytes) (inlen : ℕ) : Option (Ret (Tjt Field × Cursor)) :=
  (structUnpack 4 5 mem inlen).bind (assemble Tjt.build)

/-- Nothing behind the buffer has been looked at, and the length that is reported is inside it. -/
def Cursor.Inside (inlen : ℕ) (c : Cursor) : Prop := c.seen ≤ inlen ∧ c.next ≤ inlen

/-- An error comes of it, or something that was found inside the buffer. -/
def Careful {α : Type} (inlen : ℕ) (r : Option (Ret (α × Cursor))) : Prop :=
  r = some .inpute ∨ ∃ x c, r = some (.ok (x, c)) ∧ c.Inside inlen

variable {mem : Bytes} {inlen p k off ints strs : ℕ} {a : Addr} {c c' : Cursor} {f : Field} {fs : List Field} {t : Bytes}

theorem skip_eq (h : p + t.length ≤ inlen) : skip inlen p t = p + t.length := by
  induction t generalizing p with
  | nil => rfl
  | cons x t ih =>
    rw [List.length_cons] at h ⊢
    rw [skip, if_pos (by omega), ih (by omega)]
    omega

theorem takeWhile_string {r : Bytes} (ht : 0 ∉ t) : (t ++ 0 :: r).takeWhile (· ≠ 0) = t := by
  have hall : ∀ x ∈ t, decide (x ≠ 0) = true := fun x hx => decide_eq_true fun h => ht (h ▸ hx)
  rw [List.takeWhile_append_of_pos hall, List.takeWhile_cons_of_neg (by decide), List.append_nil]

/-- What is made of a string: for an empty one the pointer of the image stays. -/
def unpackedAs (a : Addr) (t : Bytes) : Field := if t = [] then .kept a else .fresh t

/-- A string that ends inside the buffer is unpacked there, and nothing else is looked at. -/
theorem unpackStrWithin_inside {r : Bytes} (hdrop : (mem.take inlen).drop c.next = t ++ 0 :: r) (ht : 0 ∉ t) :
    unpackStrWithin mem inlen a c =
        some (unpackedAs a t, ⟨c.next + t.length + 1, max c.seen (c.next + t.length + 1)⟩) ∧
      structUnpackStr (mem.take inlen) c.next a = some (unpackedAs a t, c.next + t.length + 1) := by
  have hlen := congrArg List.length hdrop
  simp only [List.length_drop, List.length_take, List.length_append, List.length_cons] at hlen
  have hmem : mem.drop c.next = t ++ 0 :: (r ++ mem.drop inlen) := by
    have hsplit : mem.drop c.next = (mem.take inlen).drop c.next ++ mem.drop inlen := by
      nth_rewrite 1 [← List.take_append_drop inlen mem]
      rw [List.drop_append_of_le_length (by rw [List.length_take]; omega)]
    rw [hsplit, hdrop, List.append_assoc, List.cons_append]
  have hhead : ∀ m : Bytes, m[c.next]? = (m.drop c.next).head? := fun m => by rw [List.head?_drop]
  unfold unpackStrWithin structUnpackStr
  rw [hhead, hhead, hmem, hdrop]
  cases t with
  | nil => exact ⟨rfl, rfl⟩
  | cons x t =>
    have hx : x ≠ 0 := fun h => ht (h ▸ List.mem_cons_self)
    have hcstr : ∀ (m : Bytes) (r : Bytes), m.drop c.next = (x :: t) ++ 0 :: r → cstrAt m c.next = some (x :: t) := by
      intro m r hm
      rw [cstrAt, hm, if_pos (List.mem_append_right _ List.mem_cons_self), takeWhile_string ht]
    rw [hcstr mem _ hmem, hcstr (mem.take inlen) r hdrop]
    rw [unpackedAs, if_neg (List.cons_ne_nil x t)]
    constructor
    · simp only [List.cons_append, List.head?_cons, if_neg hx, Option.map_some]
      rw [skip_eq (by omega)]
    · simp only [List.cons_append, List.head?_cons, if_neg hx, Option.map_some]

/-- Where no string ends inside the buffer, what is behind it is looked at. -/
theorem unpackStrWithin_outside (hle : c.next ≤ inlen) (hno : 0 ∉ (mem.take inlen).drop c.next)
    (h : unpackStrWithin mem inlen a c = some (f, c')) : inlen < c'.seen := by
  have hinside : ∀ i, c.next ≤ i → i < inlen → mem[i]? ≠ some 0 := by
    intro i hi hlt hzero
    apply hno
    rw [List.mem_iff_getElem?]
    refine ⟨i - c.next, ?_⟩
    rw [List.getElem?_drop, List.getElem?_take_of_lt (by omega), Nat.add_sub_cancel' hi, hzero]
  unfold unpackStrWithin at h
  split at h
  · cases h
  · rename_i x hx
    split at h
    · rename_i hzero
      cases h
      obtain hlt | heq := hle.lt_or_eq
      · exact absurd (hzero ▸ hx) (hinside c.next le_rfl hlt)
      · exact lt_max_of_lt_right (by omega)
    · obtain ⟨t, ht, heq⟩ := Option.map_eq_some_iff.mp h
      cases heq
      unfold cstrAt at ht
      split at ht
      · rename_i hin
        obtain ⟨t', r, hdrop, ht'⟩ := List.eq_append_cons_of_mem hin
        have ht : (mem.drop c.next).takeWhile (· ≠ 0) = t := Option.some.inj ht
        rw [hdrop, takeWhile_string ht'] at ht
        subst ht
        have hend : mem[c.next + t'.length]? = some 0 := by
          rw [← List.getElem?_drop, hdrop, List.getElem?_append_right le_rfl, Nat.sub_self, List.getElem?_cons_zero]
        refine lt_max_of_lt_right ?_
        by_contra hlt
        exact hinside _ (Nat.le_add_right _ _) (by omega) hend
      · cases ht

theorem unpackStrWithin_seen (h : unpackStrWithin mem inlen a c = some (f, c')) : c.seen ≤ c'.seen := by
  unfold unpackStrWithin at h
  split at h
  · cases h
  · split at h
    · cases h
      exact le_max_left _ _
    · obtain ⟨t, -, heq⟩ := Option.map_eq_some_iff.mp h
      cases heq
      exact le_max_left _ _

theorem unpackStrWithin_alone (hle : c.next ≤ inlen) (h : unpackStrWithin mem inlen a c = some (f, c'))
    (hc : c'.seen ≤ inlen) : structUnpackStr (mem.take inlen) c.next a = some (f, c'.next) ∧ c'.next ≤ inlen := by
  by_cases hin : 0 ∈ (mem.take inlen).drop c.next
  · obtain ⟨t, r, hdrop, ht⟩ := List.eq_append_cons_of_mem hin
    obtain ⟨hf', halone⟩ := unpackStrWithin_inside (a := a) hdrop ht
    rw [hf'] at h
    cases h
    exact ⟨halone, (le_max_right _ _).trans hc⟩
  · have hout := unpackStrWithin_outside hle hin h
    omega

theorem unpackStrs_succ (h : unpackStrs mem inlen (k + 1) off c = some (fs, c')) :
    ∃ a f c₁ fs', addrAt mem off = some a ∧ unpackStrWithin mem inlen a c = some (f, c₁) ∧
      unpackStrs mem inlen k (off + 8) c₁ = some (fs', c') ∧ fs = f :: fs' := by
  simp only [unpackStrs, Option.bind_eq_bind, Option.bind_eq_some_iff] at h
  obtain ⟨a, ha, ⟨f, c₁⟩, hf, ⟨fs', c₂⟩, hfs, heq⟩ := h
  cases heq
  exact ⟨a, f, c₁, fs', ha, hf, hfs, rfl⟩

theorem unpackStrs_seen (h : unpackStrs mem inlen k off c = some (fs, c')) : c.seen ≤ c'.seen := by
  induction k generalizing off c fs with
  | zero =>
    cases h
    exact le_rfl
  | succ k ih =>
    obtain ⟨a, f, c₁, fs', -, hf, hfs, -⟩ := unpackStrs_succ h
    exact (unpackStrWithin_seen hf).trans (ih hfs)

theorem unpackStrs_length (h : unpackStrs mem inlen k off c = some (fs, c')) : fs.length = k := by
  induction k generalizing off c fs with
  | zero =>
    cases h
    rfl
  | succ k ih =>
    obtain ⟨a, f, c₁, fs', -, -, hfs, rfl⟩ := unpackStrs_succ h
    rw [List.length_cons, ih hfs]

theorem addrAt_isSome (h : off + 8 ≤ mem.length) : ∃ a, addrAt mem off = some a := by
  unfold addrAt
  rw [if_pos h]
  exact ⟨_, rfl⟩

/-- Each string takes one zero byte of the buffer, the next one, and there must be one for each. -/
theorem unpackStrs_inside_iff (hmem : inlen ≤ mem.length) (hoff : off + 8 * k ≤ mem.length) (hc : c.Inside inlen) :
    (∃ fs c', unpackStrs mem inlen k off c = some (fs, c') ∧ c'.Inside inlen) ↔
      k ≤ ((mem.take inlen).drop c.next).count 0 := by
  induction k generalizing off c with
  | zero => exact iff_of_true ⟨[], c, rfl, hc⟩ (Nat.zero_le _)
  | succ k ih =>
    by_cases hin : 0 ∈ (mem.take inlen).drop c.next
    · obtain ⟨t, r, hdrop, ht⟩ := List.eq_append_cons_of_mem hin
      obtain ⟨a, ha⟩ : ∃ a, addrAt mem off = some a := addrAt_isSome (by omega)
      have hf := (unpackStrWithin_inside (a := a) hdrop ht).1
      have hlen := congrArg List.length hdrop
      simp only [List.length_drop, List.length_take, List.length_append, List.length_cons] at hlen
      have hrest : (mem.take inlen).drop (c.next + t.length + 1) = r := by
        rw [Nat.add_assoc, ← List.drop_drop, hdrop, ← List.drop_drop, List.drop_left, List.drop_one, List.tail_cons]
      have hcount : ((mem.take inlen).drop c.next).count 0 = r.count 0 + 1 := by
        rw [hdrop, List.count_append, List.count_eq_zero_of_not_mem ht, List.count_cons_self, Nat.zero_add]
      have hinside : (⟨c.next + t.length + 1, max c.seen (c.next + t.length + 1)⟩ : Cursor).Inside inlen :=
        ⟨max_le hc.1 (by omega), by dsimp only; omega⟩
      have hnext := ih (by omega : off + 8 + 8 * k ≤ mem.length) hinside
      rw [hcount, Nat.succ_le_succ_iff, ← hrest, ← hnext]
      simp only [unpackStrs, ha, hf, Option.bind_eq_bind, Option.bind_some, Option.bind_eq_some_iff]
      constructor
      · rintro ⟨fs, c', ⟨⟨fs', c₂⟩, hfs, heq⟩, hc'⟩
        cases heq
        exact ⟨fs', _, hfs, hc'⟩
      · rintro ⟨fs, c', hfs, hc'⟩
        exact ⟨_, c', ⟨(fs, c'), hfs, rfl⟩, hc'⟩
    · rw [List.count_eq_zero_of_not_mem hin]
      refine iff_of_false ?_ (Nat.not_succ_le_zero k)
      rintro ⟨fs, c', h, hc'⟩
      obtain ⟨a, f, c₁, fs', -, hf, hfs, -⟩ := unpackStrs_succ h
      have hout := unpackStrWithin_outside hc.2 hin hf
      have hseen := unpackStrs_seen hfs
      have hend := hc'.1
      omega

theorem intAt_isSome (h : p + 4 ≤ mem.length) : ∃ x, intAt mem p = some x := by
  unfold intAt
  rw [if_pos h]
  exact ⟨_, rfl⟩

theorem intsAt_isSome (h : off + 4 * ints ≤ mem.length) : ∃ xs, intsAt mem ints off = some xs ∧ xs.length = ints := by
  induction ints generalizing off with
  | zero => exact ⟨[], rfl, rfl⟩
  | succ ints ih =>
    obtain ⟨x, hx⟩ : ∃ x, intAt mem off = some x := intAt_isSome (by omega)
    obtain ⟨xs, hxs, hlen⟩ := ih (by omega : off + 4 + 4 * ints ≤ mem.length)
    refine ⟨x :: xs, ?_, by rw [List.length_cons, hlen]⟩
    rw [intsAt, hx, hxs]
    rfl

/-- A structure that can be made of as many `int`s and strings is unpacked carefully exactly when the buffer is too short
for the fixed part, or has a zero byte for each of the strings behind it. -/
theorem careful_iff {α : Type} {build : List (BitVec 32) → List Field → Option α}
    (hbuild : ∀ xs fs, xs.length = ints → fs.length = strs → ∃ x, build xs fs = some x) (hmem : inlen ≤ mem.length) :
    Careful inlen ((structUnpack ints strs mem inlen).bind (assemble build)) ↔
      inlen < 4 * ints + 8 * strs ∨ strs ≤ ((mem.take inlen).drop (4 * ints + 8 * strs)).count 0 := by
  unfold structUnpack
  by_cases hshort : inlen < 4 * ints + 8 * strs
  · rw [if_pos hshort]
    exact iff_of_true (.inl rfl) (.inl hshort)
  · obtain ⟨xs, hxs, hlen⟩ : ∃ xs, intsAt mem ints 0 = some xs ∧ xs.length = ints := intsAt_isSome (by omega)
    have hinside : (⟨4 * ints + 8 * strs, 4 * ints + 8 * strs⟩ : Cursor).Inside inlen :=
      ⟨by dsimp only; omega, by dsimp only; omega⟩
    have hiff := unpackStrs_inside_iff hmem (by omega : 4 * ints + 8 * strs ≤ mem.length) hinside
    rw [if_neg hshort, hxs, ← hiff, or_iff_right hshort]
    simp only [Option.bind_eq_bind, Option.bind_some]
    constructor
    · intro h
      cases hfs : unpackStrs mem inlen strs (4 * ints) ⟨4 * ints + 8 * strs, 4 * ints + 8 * strs⟩ with
      | none =>
        rw [hfs] at h
        rcases h with h | ⟨x, c, h, -⟩ <;> cases h
      | some p =>
        obtain ⟨fs, c⟩ := p
        obtain ⟨x, hx⟩ := hbuild xs fs hlen (unpackStrs_length hfs)
        rw [hfs, Option.bind_some, Option.bind_some, assemble, hx, Option.map_some] at h
        rcases h with h | ⟨x', c', h, hc⟩
        · cases h
        · cases h
          exact ⟨fs, c, rfl, hc⟩
    · rintro ⟨fs, c, hfs, hc⟩
      obtain ⟨x, hx⟩ := hbuild xs fs hlen (unpackStrs_length hfs)
      refine .inr ⟨x, c, ?_, hc⟩
      rw [hfs, Option.bind_some, Option.bind_some, assemble, hx, Option.map_some]

theorem File.exists_build (xs : List (BitVec 32)) (fs : List Field) (hxs : xs.length = 8) (hfs : fs.length = 7) :
    ∃ x, File.build xs fs = some x := by
  match xs, fs, hxs, hfs with
  | [_, _, _, _, _, _, _, _], [_, _, _, _, _, _, _], _, _ => exact ⟨_, rfl⟩

theorem exists_buildGNode (xs : List (BitVec 32)) (fs : List Field) (hxs : xs.length = 4) (hfs : fs.length = 2) :
    ∃ x, buildGNode xs fs = some x := by
  match xs, fs, hxs, hfs with
  | [_, _, _, _], [_, _], _, _ => exact ⟨_, rfl⟩

theorem Tjt.exists_build (xs : List (BitVec 32)) (fs : List Field) (hxs : xs.length = 4) (hfs : fs.length = 5) :
    ∃ x, Tjt.build xs fs = some x := by
  match xs, fs, hxs, hfs with
  | [_, _, _, _], [_, _, _, _, _], _, _ => exact ⟨_, rfl⟩

/-- **Damaged records are refused** exactly when they are too short for the fixed part; of a longer buffer only its own
bytes are looked at exactly when there is a zero byte for each string. `behind` is what comes behind the buffer. -/
theorem records_careful_iff (buf behind : Bytes) :
    (Careful buf.length (fileUnpack (buf ++ behind) buf.length) ↔ buf.length < 88 ∨ 7 ≤ (buf.drop 88).count 0) ∧
    (Careful buf.length (gnodeUnpack (buf ++ behind) buf.length) ↔ buf.length < 32 ∨ 2 ≤ (buf.drop 32).count 0) ∧
    (Careful buf.length (tjtUnpack (buf ++ behind) buf.length) ↔ buf.length < 56 ∨ 5 ≤ (buf.drop 56).count 0) := by
  have hmem : buf.length ≤ (buf ++ behind).length := by simp
  have htake : (buf ++ behind).take buf.length = buf := List.take_left
  refine ⟨?_, ?_, ?_⟩
  · have h := careful_iff File.exists_build hmem
    rwa [htake] at h
  · have h := careful_iff exists_buildGNode hmem
    rwa [htake] at h
  · have h := careful_iff Tjt.exists_build hmem
    rwa [htake] at h

/-- A node that was cut behind its fixed part: the string of the next value in memory is taken for its own. -/
theorem not_careful_cut : ¬ Careful 32 (gnodeUnpack (zeros 32 ++ [97, 0, 0]) 32) := by
  have hrun : gnodeUnpack (zeros 32 ++ [97, 0, 0]) 32 =
      some (.ok (⟨0, 0, 0, 0, .fresh [97], .kept 0⟩, ⟨35, 35⟩)) := by rfl
  rintro (h | ⟨node, c, h, hseen, -⟩)
  · rw [hrun] at h
    cases h
  · rw [hrun] at h
    cases h
    exact absurd hseen (by decide)

theorem intAt_append {buf : Bytes} (h : p + 4 ≤ buf.length) (behind : Bytes) : intAt (buf ++ behind) p = intAt buf p := by
  rw [intAt, intAt, if_pos h, if_pos (by rw [List.length_append]; omega), slice_append_left h]

theorem addrAt_append {buf : Bytes} (h : p + 8 ≤ buf.length) (behind : Bytes) :
    addrAt (buf ++ behind) p = addrAt buf p := by
  rw [addrAt, addrAt, if_pos h, if_pos (by rw [List.length_append]; omega), slice_append_left h]

theorem gnodeUnpack_alone {buf behind : Bytes} {node : GNode Field}
    (h : gnodeUnpack (buf ++ behind) buf.length = some (.ok (node, c))) (hc : c.Inside buf.length) :
    PackedMembers.gnodeUnpack buf 0 = some (.ok (node, c.next)) := by
  have htake : (buf ++ behind).take buf.length = buf := List.take_left
  unfold gnodeUnpack structUnpack at h
  by_cases hshort : buf.length < 4 * 4 + 8 * 2
  · rw [if_pos hshort] at h
    cases h
  · rw [if_neg hshort] at h
    simp only [intsAt, Option.bind_eq_bind, Option.bind_eq_some_iff] at h
    obtain ⟨_, ⟨_, ⟨uid, huid, _, ⟨gid, hgid, _, ⟨mode, hmode, _, ⟨status, hstatus, _, ⟨⟩, ⟨⟩⟩, ⟨⟩⟩, ⟨⟩⟩, ⟨⟩⟩,
      ⟨fs, c₂⟩, hfs, ⟨⟩⟩, h⟩ := h
    obtain ⟨a₁, f₁, c₁, fs₁, ha₁, hf₁, hrest, rfl⟩ := unpackStrs_succ hfs
    obtain ⟨a₂, f₂, c₃, fs₂, ha₂, hf₂, hend, rfl⟩ := unpackStrs_succ hrest
    cases hend
    simp only [assemble, buildGNode, Option.map_some, Option.some.injEq, Ret.ok.injEq, Prod.mk.injEq] at h
    obtain ⟨rfl, rfl⟩ := h
    have hseen := unpackStrWithin_seen hf₂
    obtain ⟨halone₁, hnext₁⟩ := unpackStrWithin_alone (by dsimp only; omega) hf₁ (hseen.trans hc.1)
    obtain ⟨halone₂, -⟩ := unpackStrWithin_alone hnext₁ hf₂ hc.1
    rw [htake] at halone₁ halone₂
    rw [intAt_append (by omega)] at huid hgid hmode hstatus
    rw [addrAt_append (by omega)] at ha₁ ha₂
    rw [PackedMembers.gnodeUnpack, if_neg (by omega)]
    simp only [PackedMembers.unpackStr, Nat.zero_add]
    simp [huid, hgid, hmode, hstatus, ha₁, ha₂, halone₁, halone₂]

end Cmoon.DamagedRecords
