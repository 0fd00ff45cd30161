import Cmoon.AppPlugin

/-! # What the cached accounts are worth

Not all that a command changes is dropped from the cache: a list of admins, a count or a secretary may be old. But an
app is never shown that is not in the table, nor with anything else than the table has in its row, except for the one
bit of `tune` that `APP_SETSECY` moves and for the day of the last change; and a list of visitors shows those that the
table has, as many as an earlier request asked for. -/
namespace Cmoon.AppCoherence
open DecimalText Datasets StatementBuilding MemberTables MemberPlugin StatementTexts LapsingCaches KeyedTables AppPlugin
open BankTransactions (hashString)
open PlanReads (reqGetParamInt)
open ConversationKeys (mdbPagediv)

theorem appinfoText_injective {aid aid' : ℤ} (h : appinfoText aid = appinfoText aid') : aid = aid' :=
  printInt_injective (List.append_cancel_left h)

theorem userlistText_injective {aid aid' : ℤ} (h : userlistText aid = userlistText aid') : aid = aid' :=
  printInt_injective (List.append_cancel_left h)

theorem ne_of_take {s t x y : Bytes} (hs : 4 ≤ s.length) (ht : 4 ≤ t.length) (h : s.take 4 ≠ t.take 4) :
    s ++ x ≠ t ++ y := by
  intro heq
  apply h
  have htake := congrArg (List.take 4) heq
  rwa [List.take_append_of_le_length hs, List.take_append_of_le_length ht] at htake

theorem appinfoText_ne_userlistText (aid aid' : ℤ) : appinfoText aid ≠ userlistText aid' :=
  ne_of_take (by decide) (by decide) (by decide)

theorem appinfoText_ne_secyText (aid aid' : ℤ) : appinfoText aid ≠ secyText aid' :=
  ne_of_take (by decide) (by decide) (by decide)

theorem userlistText_ne_secyText (aid aid' : ℤ) : userlistText aid ≠ secyText aid' :=
  ne_of_take (by decide) (by decide) (by decide)

theorem appouserText_eq (pid offset : ℤ) :
    appouserText pid offset = ascii "AppOuser" ++ (printInt pid ++ 95 :: printInt offset) := List.append_assoc _ _ _

theorem appinfoText_ne_appouserText (aid pid offset : ℤ) : appinfoText aid ≠ appouserText pid offset := by
  rw [appouserText_eq]
  exact ne_of_take (by decide) (by decide) (by decide)

theorem userlistText_ne_appouserText (aid pid offset : ℤ) : userlistText aid ≠ appouserText pid offset := by
  rw [appouserText_eq]
  exact ne_of_take (by decide) (by decide) (by decide)

/-- With the bit set it does not matter whether it has been set before, or unset. -/
theorem secy_set (x : ℤ) : intOr (intOr x lcsTuneSecy) lcsTuneSecy = intOr x lcsTuneSecy := by
  unfold intOr
  rw [BitVec.ofInt_toInt, BitVec.or_assoc, BitVec.or_self]

theorem secy_unset (x : ℤ) : intOr (intAnd x (-lcsTuneSecy - 1)) lcsTuneSecy = intOr x lcsTuneSecy := by
  unfold intOr intAnd
  rw [BitVec.ofInt_toInt]
  congr 1
  ext i hi
  have hmask : BitVec.ofInt 32 (-lcsTuneSecy - 1) = ~~~BitVec.ofInt 32 lcsTuneSecy := by decide
  rw [hmask]
  simp only [BitVec.getElem_or, BitVec.getElem_and, BitVec.getElem_not]
  cases (BitVec.ofInt 32 lcsTuneSecy)[i] <;> simp

/-- The columns of the row, but for the bit of the secretary and for the day of the last change. -/
structure ShowsApp (row : Row) (d : Dataset) : Prop where
  cols : ∀ col ∈ appinfoCol, col ≠ "tune" → col ≠ "uptime" → hdfGetValue d col = some (row col).print
  tune : ∃ x, hdfGetValue d "tune" = some (printInt x) ∧ intOr x lcsTuneSecy = intOr (tuneOf row) lcsTuneSecy

def Tuned (row : Row) : Prop := ∃ x, row "tune" = .int x

def AsksUsers (q : AicRequested) (aid lm : ℤ) : Prop :=
  ∃ aname, reqGetParamStr q.hdfrcv "aname" = .ok aname ∧ aid = hashString aname ∧ lm = limitParam q.hdfrcv

/-- The visitors in the table, in some order, as many as one of the requests asked for. -/
def ShowsUsers (qs : List AicRequested) (t : AicTables) (aid : ℤ) (r : AicReply) : Prop :=
  ∃ rows lm, rows.Perm (usersIn t aid) ∧ (∃ q ∈ qs, AsksUsers q aid lm) ∧
    r = ⟨[], usersOf userinfoCol "uname" (limited lm rows)⟩

variable {kept : AicReply → AicReply} {met : Met} {s s' : AicPlugin} {t t' : AicTables} {qs : List AicRequested}
  {q : AicRequested} {hdfrcv : Dataset} {aid lm : ℤ} {aname : Bytes} {r : AicReply} {row : Row} {d : Dataset}

theorem tuneOf_eq {x : ℤ} (h : row "tune" = .int x) : tuneOf row = x := by
  unfold tuneOf
  rw [h]

theorem Tuned.print (h : Tuned row) : (row "tune").print = printInt (tuneOf row) := by
  obtain ⟨x, hx⟩ := h
  rw [tuneOf_eq hx, hx]
  rfl

theorem query_eq_ok {α : Type} {n : ℕ} {a b : α} (h : query met n a = .ok b) : a = b := by
  unfold query at h
  split at h
  · exact Except.ok.inj h
  · cases h

theorem packable_eq_ok {r' : AicReply} (h : packable met r = .ok r') : r = r' := by
  unfold packable at h
  split at h
  · exact Except.ok.inj h
  · cases h

theorem bind_ok {α β : Type} {x : Except AicErr α} {f : α → Except AicErr β} {b : β} (h : x >>= f = .ok b) :
    ∃ a, x = .ok a ∧ f a = .ok b := by
  cases x with
  | error err => cases h
  | ok a => exact ⟨a, rfl, h⟩

theorem parentName_value {d' : Dataset} (h : parentName met t d = .ok d') {col : String} (hcol : col ≠ "pname") :
    hdfGetValue d' col = hdfGetValue d col := by
  unfold parentName at h
  dsimp only at h
  split at h
  · rw [Except.ok.inj h]
  · rw [← query_eq_ok h]
    split
    · rw [hdfGetValue_set, if_neg hcol]
    · rfl

theorem selectApp_ok (h : selectApp met t aname aid = .ok r) :
    ∃ row, t.appinfo.find (.int aid) = some row ∧ ∀ col ∈ appinfoCol, hdfGetValue r.hdf col = some (row col).print := by
  obtain ⟨found, hfound, h⟩ := bind_ok h
  cases query_eq_ok hfound
  cases hrow : t.appinfo.find (.int aid) with
  | none =>
    rw [hrow] at h
    cases h
  | some row =>
    rw [hrow] at h
    obtain ⟨d, hd, h⟩ := bind_ok h
    obtain ⟨n, -, h⟩ := bind_ok h
    cases packable_eq_ok h
    refine ⟨row, rfl, fun col hcol => ?_⟩
    have hpname : col ≠ "pname" := fun heq => absurd (heq ▸ hcol) (by decide)
    have hnumuser : col ≠ "numuser" := fun heq => absurd (heq ▸ hcol) (by decide)
    change hdfGetValue (hdfSetIntValue d "numuser" n) col = _
    rw [hdfSetIntValue, hdfGetValue_set, if_neg hnumuser, parentName_value hd hpname, hdfGetValue_mdbSetRow,
      if_pos hcol]

/-- A site that the server does not have is not shown, and neither is any when the server does not answer. -/
theorem selectApp_nregist (h : selectApp met t aname aid = .error .nregist) : t.appinfo.find (.int aid) = none := by
  unfold selectApp query at h
  split at h
  · cases hrow : t.appinfo.find (.int aid) with
    | none => rfl
    | some row =>
      rw [hrow] at h
      change (parentName met t _ >>= fun d => _) = _ at h
      unfold parentName query packable at h
      dsimp only at h
      split_ifs at h <;> cases h
  · cases h

theorem assign_of_notMem {cols : Assignments} {col : String} (h : col ∉ cols.map Prod.fst) :
    row.assign cols col = row col := by
  apply Row.assign_of_lookup_none
  rw [List.lookup_eq_none_iff]
  intro p hp
  exact bne_iff_ne.mpr fun heq => h (List.mem_map.mpr ⟨p, hp, heq.symm⟩)

theorem notMem_givenCols {data : Dataset} {specs : List ColumnSpec} {col : String}
    (h : col ∉ specs.map ColumnSpec.col) : col ∉ (givenCols data specs).map Prod.fst := by
  intro hmem
  obtain ⟨⟨col', lit⟩, hp, rfl⟩ := List.mem_map.mp hmem
  obtain ⟨spec, hspec, -, -, hcol, -⟩ := mem_givenCols.mp hp
  exact h (List.mem_map.mpr ⟨spec, hspec, hcol⟩)

theorem givenCols_lookup {data : Dataset} {specs : List ColumnSpec} {spec : ColumnSpec} {val : Bytes}
    (hspec : spec ∈ specs) (hcols : (specs.map ColumnSpec.col).Nodup) (hval : nonempty data spec.name = some val) :
    (givenCols data specs).lookup spec.col = some (spec.literal val) := by
  induction specs with
  | nil => cases hspec
  | cons spec' specs ih =>
    rw [List.map_cons, List.nodup_cons] at hcols
    obtain rfl | hspec := List.mem_cons.mp hspec
    · rw [givenCols, List.filterMap_cons, hval]
      exact List.lookup_cons_self
    · have hne : spec.col ≠ spec'.col := fun heq => hcols.1 (heq ▸ List.mem_map_of_mem hspec)
      rw [givenCols, List.filterMap_cons]
      cases nonempty data spec'.name with
      | none => exact ih hspec hcols.2
      | some val' =>
        rw [Option.map_some, List.lookup_cons, beq_false_of_ne hne]
        exact ih hspec hcols.2

theorem touched_of_ne {today : Bytes} {col : String} (h : col ≠ "uptime") : touched today row col = row col :=
  assign_of_notMem (by simpa using h)

theorem created_of_ne {today : Bytes} {col : String} (h₁ : col ≠ "intime") (h₂ : col ≠ "uptime") :
    created today row col = row col := assign_of_notMem (by simpa using ⟨h₁, h₂⟩)

theorem retuned_of_ne {f : ℤ → ℤ} {col : String} (h : col ≠ "tune") : retuned f row col = row col :=
  assign_of_notMem (by simpa using h)

theorem retuned_tune (f : ℤ → ℤ) (row : Row) : retuned f row "tune" = .int (f (tuneOf row)) := rfl

theorem newApp_aid (met : Met) (hdfrcv : Dataset) (aid : ℤ) (cols : Assignments) :
    newApp met hdfrcv aid cols "aid" = .int aid := rfl

theorem appupCols_fst {cols : Assignments} (h : appupCols met hdfrcv = .ok cols) {col : String}
    (hcol : col ∉ updateColAppinfo.map ColumnSpec.col) : col ∉ cols.map Prod.fst := by
  rw [met.mnl.mcsBuildUpcol_ok h]
  exact notMem_givenCols hcol

theorem upApp_aid {cols : Assignments} (h : appupCols met hdfrcv = .ok cols) (row : Row) :
    upApp met hdfrcv cols row "aid" = row "aid" := by
  have hcol : "aid" ∉ cols.map Prod.fst := appupCols_fst h (by decide)
  unfold upApp
  rw [touched_of_ne (by decide)]
  cases tuneParam hdfrcv with
  | some f => exact (assign_of_notMem hcol).trans (retuned_of_ne (by decide))
  | none => exact assign_of_notMem hcol

theorem upApp_tuned {cols : Assignments} (h : appupCols met hdfrcv = .ok cols) (hrow : Tuned row) :
    Tuned (upApp met hdfrcv cols row) := by
  have hcol : "tune" ∉ cols.map Prod.fst := appupCols_fst h (by decide)
  unfold Tuned upApp
  rw [touched_of_ne (by decide)]
  cases tuneParam hdfrcv with
  | some f => exact ⟨f (tuneOf row), (assign_of_notMem hcol).trans (retuned_tune f row)⟩
  | none => exact hrow.imp fun _ hx => (assign_of_notMem hcol).trans hx

theorem hashString_natCast (name : Bytes) : ∃ n : ℕ, n < 2 ^ 31 ∧ hashString name = n := by
  refine ⟨_, ?_, rfl⟩
  rw [UInt32.toNat_and]
  exact Nat.lt_of_le_of_lt Nat.and_le_right (by decide)

theorem atoi_hashString (name : Bytes) : atoi (printInt (hashString name)) = hashString name := by
  obtain ⟨n, hn, hname⟩ := hashString_natCast name
  rw [hname, printInt_natCast, atoi_printNat hn]

theorem printInt_nonempty (x : ℤ) : printInt x ≠ [] := by
  obtain ⟨b, s, h, -⟩ := printInt_head x
  rw [h]
  exact List.cons_ne_nil b s

theorem nonempty_withIds_uid (hdfrcv : Dataset) (uid aid : ℤ) :
    nonempty (withIds hdfrcv uid aid) "uid" = some (printInt uid) := by
  unfold withIds hdfSetIntValue
  rw [nonempty_set, if_neg (by decide), nonempty_set, if_pos rfl]
  exact Option.filter_eq_some_iff.mpr ⟨rfl, decide_eq_true (printInt_nonempty uid)⟩

theorem nonempty_withIds_aid (hdfrcv : Dataset) (uid aid : ℤ) :
    nonempty (withIds hdfrcv uid aid) "aid" = some (printInt aid) := by
  unfold withIds hdfSetIntValue
  rw [nonempty_set, if_pos rfl]
  exact Option.filter_eq_some_iff.mpr ⟨rfl, decide_eq_true (printInt_nonempty aid)⟩

theorem nonempty_withIds_of_ne (hdfrcv : Dataset) (uid aid : ℤ) {name : String} (huid : name ≠ "uid")
    (haid : name ≠ "aid") : nonempty (withIds hdfrcv uid aid) name = nonempty hdfrcv name := by
  unfold withIds hdfSetIntValue
  rw [nonempty_set, if_neg haid, nonempty_set, if_neg huid]

/-- The visitor that `APPUSERIN` inserts. -/
structure IsVisitor (row : Row) (uname : Bytes) (aid : ℤ) : Prop where
  uid : row "uid" = .int (hashString uname)
  uname : row "uname" = .text (varchar 256 uname)
  aid : row "aid" = .int aid

theorem newUser_isVisitor {uname : Bytes} {cols : Assignments}
    (huname : reqGetParamStr hdfrcv "uname" = .ok uname)
    (hcols : met.mnl.mcsBuildIncol (withIds hdfrcv (hashString uname) (hashString aname)) insertColUserinfo = .ok cols) :
    IsVisitor (newUser met cols) uname (hashString aname) := by
  obtain rfl := met.mnl.mcsBuildIncol_ok hcols
  have hnodup : (insertColUserinfo.map ColumnSpec.col).Nodup := by decide
  have hassign : ∀ spec ∈ insertColUserinfo, ∀ val, spec.col ≠ "intime" → spec.col ≠ "uptime" →
      nonempty (withIds hdfrcv (hashString uname) (hashString aname)) spec.name = some val →
      newUser met (givenCols (withIds hdfrcv (hashString uname) (hashString aname)) insertColUserinfo) spec.col =
        (spec.literal val).store := by
    intro spec hspec val h₁ h₂ hval
    unfold newUser
    rw [created_of_ne h₁ h₂, Row.assign, givenCols_lookup hspec hnodup hval]
  have hgiven : nonempty hdfrcv "uname" = some uname := by
    unfold reqGetParamStr at huname
    split at huname
    · rename_i v hv
      rw [hv, Except.ok.inj huname]
    · cases huname
  refine ⟨?_, ?_, ?_⟩
  · have h := hassign (intCol "uid" false) (by simp [insertColUserinfo]) _ (by decide) (by decide)
      (nonempty_withIds_uid _ _ _)
    exact h.trans (congrArg Value.int (atoi_hashString uname))
  · exact hassign (strCol "uname" 256 true) (by simp [insertColUserinfo]) _ (by decide) (by decide)
      ((nonempty_withIds_of_ne _ _ _ (by decide) (by decide)).trans hgiven)
  · have h := hassign (intCol "aid" false) (by simp [insertColUserinfo]) _ (by decide) (by decide)
      (nonempty_withIds_aid _ _ _)
    exact h.trans (congrArg Value.int (atoi_hashString aname))

section Rules
variable {P : AicPlugin → Prop} {key : Bytes} {select : Except AicErr AicReply}

theorem withParam_ends {α : Type} {Q : AicOutcome → Prop} {param : Except RepErr α} {next : α → AicOutcome}
    (herr : ∀ err, Q (.error err, s)) (hnext : ∀ a, param = .ok a → Q (next a)) : Q (withParam s param next) := by
  cases param with
  | error err => exact herr _
  | ok a => exact hnext a rfl

theorem withParam_keeps {α : Type} {param : Except RepErr α} {next : α → AicOutcome} (hs : P s)
    (hnext : ∀ a, param = .ok a → P (next a).2) : P (withParam s param next).2 :=
  withParam_ends (Q := fun out => P out.2) (fun _ => hs) hnext

theorem withParam_ok {α : Type} {param : Except RepErr α} {next : α → AicOutcome}
    (h : (withParam s param next).1 = .ok r) : ∃ a, param = .ok a ∧ (next a).1 = .ok r := by
  cases param with
  | error err => cases h
  | ok a => exact ⟨a, rfl, h⟩

theorem exec_ends {Q : AicOutcome → Prop} {n : ℕ} {t : Option AicTables} {next : AicPlugin → AicOutcome}
    (herr : ∀ err, Q (.error err, s)) (hnext : ∀ t', t = some t' → Q (next { s with tables := t' })) :
    Q (s.exec met n t next) := by
  unfold AicPlugin.exec
  cases t with
  | none => exact herr _
  | some t' =>
    dsimp only
    split
    · exact hnext t' rfl
    · exact herr _

theorem exec_keeps {n : ℕ} {t : Option AicTables} {next : AicPlugin → AicOutcome} (hs : P s)
    (hnext : ∀ t', t = some t' → P (next { s with tables := t' }).2) : P (s.exec met n t next).2 :=
  exec_ends (Q := fun out => P out.2) (fun _ => hs) hnext

/-- What a command reads was cached, or has just been selected. -/
theorem cached_ok (h : (cached kept s key select).1 = .ok r) : s.cd key = some r ∨ select = .ok r :=
  readThrough_eq_ok h

theorem cached_error {err : AicErr} (h : (cached kept s key select).1 = .error err) :
    s.cd key = none ∧ select = .error err := by
  have hread := readThrough_fst kept s.cd key key select
  rw [show (readThrough kept s.cd key key select).1 = .error err from h] at hread
  cases hkey : s.cd key with
  | none =>
    rw [hkey] at hread
    exact ⟨rfl, hread.symm⟩
  | some r =>
    rw [hkey] at hread
    cases hread

/-- The entries after it are old ones, or the one that has just been put in. -/
theorem cached_entry {key' : Bytes} (h : (cached kept s key select).2.cd key' = some r) :
    s.cd key' = some r ∨ key' = key ∧ ∃ r₀, select = .ok r₀ ∧ r = kept r₀ := by
  by_cases hkey : key' = key
  · subst hkey
    unfold cached readThrough at h
    dsimp only at h
    split at h
    · exact .inl h
    · split at h
      · rename_i r₀
        refine .inr ⟨rfl, r₀, rfl, ?_⟩
        exact Option.some.inj (h.symm.trans (Function.update_self _ _ _))
      · exact .inl h
  · left
    exact (readThrough_snd_of_ne (c := s.cd) kept key hkey select).symm.trans h

theorem delf_entry {key' : Bytes} (h : (s.delf key).cd key' = some r) : key' ≠ key ∧ s.cd key' = some r := by
  unfold AicPlugin.delf drop at h
  dsimp only at h
  by_cases hkey : key' = key
  · subst hkey
    rw [Function.update_self] at h
    cases h
  · rw [Function.update_of_ne hkey] at h
    exact ⟨hkey, h⟩

theorem dropApp_entry {pid : ℤ} {key' : Bytes} (h : (s.dropApp aid pid).cd key' = some r) :
    key' ≠ appinfoText aid ∧ s.cd key' = some r := by
  unfold AicPlugin.dropApp at h
  dsimp only at h
  split at h
  · exact delf_entry (delf_entry h).2
  · exact delf_entry h

theorem dropApp_tables (s : AicPlugin) (aid pid : ℤ) : (s.dropApp aid pid).tables = s.tables := by
  unfold AicPlugin.dropApp
  dsimp only
  split <;> rfl

end Rules

section Statements
variable {p : Row → Bool} {f : Row → Row}

theorem onRows_keeps {α : Type} {g : Row → α} (hf : ∀ row, g (f row) = g row) (row : Row) :
    g (onRows p f row) = g row := by
  unfold onRows
  split
  · exact hf row
  · rfl

theorem insertApp_some (h : t.insertApp row = some t') :
    t.appinfo.insert row = some t'.appinfo ∧ t'.userinfo = t.userinfo := by
  obtain ⟨appinfo, happ, rfl⟩ := Option.map_eq_some_iff.mp h
  exact ⟨happ, rfl⟩

theorem updateApps_some (h : t.updateApps p f = some t') :
    t.appinfo.update (onRows p f) = some t'.appinfo ∧ t'.userinfo = t.userinfo := by
  obtain ⟨appinfo, happ, rfl⟩ := Option.map_eq_some_iff.mp h
  exact ⟨happ, rfl⟩

theorem insertUser_some (h : t.insertUser row = some t') :
    t.userinfo.insert row = some t'.userinfo ∧ t'.appinfo = t.appinfo := by
  obtain ⟨userinfo, huser, rfl⟩ := Option.map_eq_some_iff.mp h
  exact ⟨huser, rfl⟩

theorem updateUsers_some (h : t.updateUsers p f = some t') :
    t.userinfo.update (onRows p f) = some t'.userinfo ∧ t'.appinfo = t.appinfo := by
  obtain ⟨userinfo, huser, rfl⟩ := Option.map_eq_some_iff.mp h
  exact ⟨huser, rfl⟩

theorem usersIn_insert (h : t.insertUser row = some t') {aid' : ℤ} (hrow : row "aid" = .int aid) (hne : aid' ≠ aid) :
    usersIn t' aid' = usersIn t aid' := by
  have hnot : ¬ row "aid" = .int aid' := by
    rw [hrow]
    exact fun heq => hne (Value.int.inj heq).symm
  unfold usersIn
  rw [(Table.insert_eq_some.mp (insertUser_some h).1).2, List.filter_append,
    List.filter_cons_of_neg (by simpa using hnot), List.filter_nil, List.append_nil]

theorem usersIn_update {uid : ℤ} (h : t.updateUsers (isUser uid aid) f = some t') (hf : ∀ row, f row "aid" = row "aid")
    {aid' : ℤ} (hne : aid' ≠ aid) : usersIn t' aid' = usersIn t aid' := by
  unfold usersIn
  rw [Table.rows_update (updateUsers_some h).1, List.filter_map]
  have hp : (fun row : Row => decide (row "aid" = .int aid')) ∘ onRows (isUser uid aid) f =
      fun row => decide (row "aid" = .int aid') := by
    funext row
    exact congrArg (fun v => decide (v = Value.int aid')) (onRows_keeps (g := fun row => row "aid") hf row)
  rw [hp]
  -- the rows of another site are not changed
  refine (List.map_congr_left fun row hrow => ?_).trans (List.map_id _)
  have haid : row "aid" = .int aid' := of_decide_eq_true (List.mem_filter.mp hrow).2
  unfold onRows isUser
  rw [if_neg, id]
  rw [haid]
  intro hboth
  exact hne (Value.int.inj (of_decide_eq_true hboth).2)

theorem usersIn_delete (uid : ℤ) {aid' : ℤ} (hne : aid' ≠ aid) :
    usersIn { t with userinfo := t.userinfo.delete (isUser uid aid) } aid' = usersIn t aid' := by
  change (t.userinfo.rows.filter (!isUser uid aid ·)).filter _ = _
  rw [List.filter_filter]
  apply List.filter_congr
  intro row _
  unfold isUser
  by_cases haid : row "aid" = .int aid'
  · simp [haid, hne]
  · simp [haid]

end Statements

def AppHeld (kept : AicReply → AicReply) (t : AicTables) (aid : ℤ) (r : AicReply) : Prop :=
  ∃ row r₀, t.appinfo.find (.int aid) = some row ∧ ShowsApp row r₀.hdf ∧ r = kept r₀

def UsersHeld (kept : AicReply → AicReply) (qs : List AicRequested) (t : AicTables) (aid : ℤ) (r : AicReply) : Prop :=
  ∃ r₀, ShowsUsers qs t aid r₀ ∧ r = kept r₀

structure Coherent (kept : AicReply → AicReply) (qs : List AicRequested) (s : AicPlugin) : Prop where
  tuned : ∀ row ∈ s.tables.appinfo.rows, Tuned row
  apps : ∀ aid r, s.cd (appinfoText aid) = some r → AppHeld kept s.tables aid r
  users : ∀ aid r, s.cd (userlistText aid) = some r → UsersHeld kept qs s.tables aid r

section Coherence
variable {key : Bytes} {select : Except AicErr AicReply}

theorem Coherent.forget (h : Coherent kept qs s) {cd : Store Bytes AicReply}
    (hcd : ∀ key r, cd key = some r → s.cd key = some r) : Coherent kept qs { s with cd := cd } :=
  ⟨h.tuned, fun aid r hr => h.apps aid r (hcd _ r hr), fun aid r hr => h.users aid r (hcd _ r hr)⟩

theorem Coherent.delf (h : Coherent kept qs s) (key : Bytes) : Coherent kept qs (s.delf key) :=
  h.forget fun _ _ hr => (delf_entry hr).2

theorem Coherent.later (h : Coherent kept qs s) (q : AicRequested) : Coherent kept (qs ++ [q]) s := by
  refine ⟨h.tuned, h.apps, fun aid r hr => ?_⟩
  obtain ⟨r₀, ⟨rows, lm, hperm, ⟨q', hq', hasks⟩, hr₀⟩, hkept⟩ := h.users aid r hr
  exact ⟨r₀, ⟨rows, lm, hperm, ⟨q', List.mem_append_left _ hq', hasks⟩, hr₀⟩, hkept⟩

/-- A reply that is put in is about what its key stands for. -/
theorem Coherent.cached (h : Coherent kept qs s)
    (happ : ∀ aid r₀, key = appinfoText aid → select = .ok r₀ → AppHeld kept s.tables aid (kept r₀))
    (husers : ∀ aid r₀, key = userlistText aid → select = .ok r₀ → UsersHeld kept qs s.tables aid (kept r₀)) :
    Coherent kept qs (cached kept s key select).2 := by
  refine ⟨h.tuned, fun aid r hr => ?_, fun aid r hr => ?_⟩
  · obtain hold | ⟨hkey, r₀, hselect, rfl⟩ := cached_entry hr
    · exact h.apps aid r hold
    · exact happ aid r₀ hkey.symm hselect
  · obtain hold | ⟨hkey, r₀, hselect, rfl⟩ := cached_entry hr
    · exact h.users aid r hold
    · exact husers aid r₀ hkey.symm hselect

/-- A statement is executed, and the entries that it makes wrong are dropped. -/
theorem Coherent.write (h : Coherent kept qs s) (htuned : ∀ row ∈ s'.tables.appinfo.rows, Tuned row)
    (hcd : ∀ key r, s'.cd key = some r → s.cd key = some r)
    (happs : ∀ aid row d, (s'.cd (appinfoText aid)).isSome → s.tables.appinfo.find (.int aid) = some row →
      ShowsApp row d → ∃ row', s'.tables.appinfo.find (.int aid) = some row' ∧ ShowsApp row' d)
    (husers : ∀ aid, (s'.cd (userlistText aid)).isSome → usersIn s'.tables aid = usersIn s.tables aid) :
    Coherent kept qs s' := by
  refine ⟨htuned, fun aid r hr => ?_, fun aid r hr => ?_⟩
  · obtain ⟨row, r₀, hrow, hshows, rfl⟩ := h.apps aid r (hcd _ r hr)
    obtain ⟨row', hrow', hshows'⟩ := happs aid row r₀.hdf (Option.isSome_of_eq_some hr) hrow hshows
    exact ⟨row', r₀, hrow', hshows', rfl⟩
  · obtain ⟨r₀, ⟨rows, lm, hperm, hasks, hr₀⟩, rfl⟩ := h.users aid r (hcd _ r hr)
    have hsame := husers aid (Option.isSome_of_eq_some hr)
    exact ⟨r₀, ⟨rows, lm, hsame ▸ hperm, hasks, hr₀⟩, rfl⟩

theorem shows_selectApp (htuned : ∀ row ∈ t.appinfo.rows, Tuned row) (h : selectApp met t aname aid = .ok r) :
    ∃ row, t.appinfo.find (.int aid) = some row ∧ ShowsApp row r.hdf := by
  obtain ⟨row, hrow, hcols⟩ := selectApp_ok h
  have ht := htuned row (Table.find_eq_some.mp hrow).1
  refine ⟨row, hrow, fun col hcol _ _ => hcols col hcol, tuneOf row, ?_, rfl⟩
  rw [hcols "tune" (by decide), ht.print]

theorem shows_selectUsers (h : selectUsers met t aid lm = .ok r) (hasks : ∃ q ∈ qs, AsksUsers q aid lm) :
    ShowsUsers qs t aid r := by
  obtain ⟨rows, hrows, h⟩ := bind_ok h
  cases query_eq_ok hrows
  cases packable_eq_ok h
  refine ⟨newestFirst met (usersIn t aid), lm, ?_, hasks, rfl⟩
  exact (List.perm_insertionSort _ _).trans (met.found.2 _)

theorem coherent_appinfo (h : Coherent kept qs s) : Coherent kept qs (aicCmdAppinfo kept met s hdfrcv).2 := by
  refine withParam_keeps h fun aname _ => h.cached (fun aid r₀ hkey hselect => ?_) fun aid r₀ hkey _ => ?_
  · obtain ⟨row, hrow, hshows⟩ := shows_selectApp h.tuned hselect
    exact ⟨row, r₀, appinfoText_injective hkey ▸ hrow, hshows, rfl⟩
  · exact absurd hkey (appinfoText_ne_userlistText _ _)

theorem coherent_appusers (h : Coherent kept qs s)
    (hasks : ∀ aname, reqGetParamStr hdfrcv "aname" = .ok aname →
      ∃ q ∈ qs, AsksUsers q (hashString aname) (limitParam hdfrcv)) :
    Coherent kept qs (aicCmdAppusers kept met s hdfrcv).2 := by
  refine withParam_keeps h fun aname haname => h.cached (fun aid r₀ hkey _ => ?_) fun aid r₀ hkey hselect => ?_
  · exact absurd hkey.symm (appinfoText_ne_userlistText _ _)
  · have hshows := shows_selectUsers hselect (hasks aname haname)
    exact ⟨r₀, userlistText_injective hkey ▸ hshows, rfl⟩

theorem coherent_getsecy (h : Coherent kept qs s) : Coherent kept qs (aicCmdAppGetsecy kept met s hdfrcv).2 := by
  refine withParam_keeps h fun aname _ => h.cached (fun aid r₀ hkey _ => ?_) fun aid r₀ hkey _ => ?_
  · exact absurd hkey.symm (appinfoText_ne_secyText _ _)
  · exact absurd hkey.symm (userlistText_ne_secyText _ _)

theorem coherent_appousers (h : Coherent kept qs s) : Coherent kept qs (aicCmdAppousers kept met s hdfrcv).2 := by
  refine withParam_keeps h fun pname _ => h.cached (fun aid r₀ hkey _ => ?_) fun aid r₀ hkey _ => ?_
  · exact absurd hkey.symm (appinfoText_ne_appouserText _ _ _)
  · exact absurd hkey.symm (userlistText_ne_appouserText _ _ _)

theorem coherent_insertApp (h : Coherent kept qs s) (ht : s.tables.insertApp row = some t')
    (haid : row "aid" = .int aid) (hrow : Tuned row) (pid : ℤ) :
    Coherent kept qs ({ s with tables := t' }.dropApp aid pid) := by
  obtain ⟨happ, huser⟩ := insertApp_some ht
  refine h.write ?_ (fun _ _ hr => (dropApp_entry hr).2) ?_ ?_
  · rw [dropApp_tables]
    intro row' hrow'
    obtain hold | rfl := (Table.mem_insert happ).mp hrow'
    · exact h.tuned row' hold
    · exact hrow
  · intro aid' row' d hsome hrow' hshows
    obtain ⟨r, hr⟩ := Option.isSome_iff_exists.mp hsome
    have hne : ¬ Value.int aid' = appKey row := by
      intro heq
      have haid' : aid' = aid := Value.int.inj (heq.trans haid)
      exact (dropApp_entry hr).1 (congrArg appinfoText haid')
    rw [dropApp_tables]
    exact ⟨row', by rw [Table.find_insert happ, if_neg hne, hrow'], hshows⟩
  · intro aid' _
    rw [dropApp_tables, usersIn, huser]
    rfl

theorem coherent_updateApp (h : Coherent kept qs s) {f : Row → Row}
    (ht : s.tables.updateApps (· "aid" = .int aid) f = some t') (haid : ∀ row, f row "aid" = row "aid")
    (htuned : ∀ row, Tuned row → Tuned (f row)) (pid : ℤ) :
    Coherent kept qs ({ s with tables := t' }.dropApp aid pid) := by
  obtain ⟨happ, huser⟩ := updateApps_some ht
  refine h.write ?_ (fun _ _ hr => (dropApp_entry hr).2) ?_ ?_
  · rw [dropApp_tables]
    intro row' hrow'
    obtain ⟨row, hrow, rfl⟩ := (Table.mem_update happ).mp hrow'
    unfold onRows
    split
    · exact htuned row (h.tuned row hrow)
    · exact h.tuned row hrow
  · intro aid' row d hsome hrow hshows
    obtain ⟨r, hr⟩ := Option.isSome_iff_exists.mp hsome
    have hne : ¬ row "aid" = .int aid := by
      intro heq
      have haid' : aid' = aid := Value.int.inj ((Table.find_eq_some.mp hrow).2.symm.trans heq)
      exact (dropApp_entry hr).1 (congrArg appinfoText haid')
    rw [dropApp_tables]
    refine ⟨row, ?_, hshows⟩
    rw [Table.find_update happ (onRows_keeps haid), hrow, Option.map_some, onRows, if_neg (by simpa using hne)]
  · intro aid' _
    rw [dropApp_tables, usersIn, huser]
    rfl

theorem coherent_deleteApp (h : Coherent kept qs s) (aid pid : ℤ) :
    Coherent kept qs ({ s with tables := { s.tables with
      appinfo := s.tables.appinfo.delete fun row => row "aid" = Value.int aid } }.dropApp aid pid) := by
  refine h.write ?_ (fun _ _ hr => (dropApp_entry hr).2) ?_ ?_
  · rw [dropApp_tables]
    intro row hrow
    exact h.tuned row (Table.mem_delete.mp hrow).1
  · intro aid' row d hsome hrow hshows
    obtain ⟨r, hr⟩ := Option.isSome_iff_exists.mp hsome
    have hne : ¬ row "aid" = .int aid := by
      intro heq
      have haid' : aid' = aid := Value.int.inj ((Table.find_eq_some.mp hrow).2.symm.trans heq)
      exact (dropApp_entry hr).1 (congrArg appinfoText haid')
    rw [dropApp_tables]
    refine ⟨row, ?_, hshows⟩
    rw [Table.find_delete, hrow]
    exact Option.filter_eq_some_iff.mpr ⟨rfl, by simpa using hne⟩
  · intro aid' _
    rw [dropApp_tables]
    rfl

/-- The bit is moved, of any apps; no entry need be dropped for that. -/
theorem coherent_retune (h : Coherent kept qs s) {p : Row → Bool} {f : ℤ → ℤ}
    (ht : s.tables.updateApps p (retuneSite met f) = some t')
    (hf : ∀ x, intOr (f x) lcsTuneSecy = intOr x lcsTuneSecy) : Coherent kept qs { s with tables := t' } := by
  obtain ⟨happ, huser⟩ := updateApps_some ht
  have htune : ∀ row, retuneSite met f row "tune" = .int (f (tuneOf row)) := by
    intro row
    exact (touched_of_ne (by decide)).trans (retuned_tune f row)
  have hcol : ∀ row col, col ≠ "tune" → col ≠ "uptime" → retuneSite met f row col = row col := by
    intro row col htune huptime
    exact (touched_of_ne huptime).trans (retuned_of_ne htune)
  refine h.write ?_ (fun _ _ hr => hr) ?_ ?_
  · intro row' hrow'
    obtain ⟨row, hrow, rfl⟩ := (Table.mem_update happ).mp hrow'
    unfold onRows
    split
    · exact ⟨_, htune row⟩
    · exact h.tuned row hrow
  · intro aid' row d _ hrow hshows
    refine ⟨onRows p (retuneSite met f) row, ?_, ?_⟩
    · rw [Table.find_update happ (onRows_keeps fun row => hcol row "aid" (by decide) (by decide)), hrow,
        Option.map_some]
    · unfold onRows
      split
      · obtain ⟨x, hx, hor⟩ := hshows.tune
        refine ⟨fun col hmem h₁ h₂ => ?_, x, hx, ?_⟩
        · rw [hcol row col h₁ h₂]
          exact hshows.cols col hmem h₁ h₂
        · rw [tuneOf_eq (htune row), hf, hor]
      · exact hshows
  · intro aid' _
    rw [usersIn, huser]
    rfl

theorem coherent_users (h : Coherent kept qs s) (happ : t'.appinfo = s.tables.appinfo)
    (huser : ∀ aid', aid' ≠ aid → usersIn t' aid' = usersIn s.tables aid') :
    Coherent kept qs ({ s with tables := t' }.delf (userlistText aid)) := by
  refine h.write ?_ (fun _ _ hr => (delf_entry hr).2) ?_ ?_
  · intro row hrow
    exact h.tuned row (happ ▸ hrow)
  · intro aid' row d _ hrow hshows
    exact ⟨row, by rw [← hrow, ← happ]; rfl, hshows⟩
  · intro aid' hsome
    obtain ⟨r, hr⟩ := Option.isSome_iff_exists.mp hsome
    exact huser aid' fun heq => (delf_entry hr).1 (congrArg userlistText heq)

theorem appnewParams_ok {cols : Assignments} (h : appnewParams hdfrcv = .ok (aname, cols)) :
    reqGetParamStr hdfrcv "aname" = .ok aname ∧ cols.map Prod.fst = ["aname", "asn", "masn", "email", "state"] := by
  unfold appnewParams at h
  cases hstate : reqGetParamInt hdfrcv "state" with
  | error err =>
    rw [hstate] at h
    cases h
  | ok state =>
    cases hname : reqGetParamStr hdfrcv "aname" with
    | error err =>
      rw [hstate, hname] at h
      cases h
    | ok name =>
      cases hasn : reqGetParamStr hdfrcv "asn" with
      | error err =>
        rw [hstate, hname, hasn] at h
        cases h
      | ok asn =>
        cases hmasn : reqGetParamStr hdfrcv "masn" with
        | error err =>
          rw [hstate, hname, hasn, hmasn] at h
          cases h
        | ok masn =>
          cases hemail : reqGetParamStr hdfrcv "email" with
          | error err =>
            rw [hstate, hname, hasn, hmasn, hemail] at h
            cases h
          | ok email =>
            rw [hstate, hname, hasn, hmasn, hemail] at h
            cases h
            exact ⟨rfl, rfl⟩

theorem newApp_tuned {cols : Assignments} (h : appnewParams hdfrcv = .ok (aname, cols)) :
    Tuned (newApp met hdfrcv aid cols) := by
  have hcols := (appnewParams_ok h).2
  refine ⟨0, ?_⟩
  unfold newApp
  rw [created_of_ne (by decide) (by decide)]
  refine (assign_of_notMem ?_).trans rfl
  rw [List.map_append, hcols]
  simp

theorem coherent_appnew (h : Coherent kept qs s) : Coherent kept qs (aicCmdAppnew kept met s hdfrcv).2 := by
  refine withParam_keeps h fun ⟨aname, cols⟩ hparams => ?_
  have hout : Coherent kept qs (aicCmdAppinfo kept met s hdfrcv).2 := coherent_appinfo h
  have hinsert : ∀ hdfsnd : AicReply, Coherent kept qs ((aicCmdAppinfo kept met s hdfrcv).2.exec met 0
      ((aicCmdAppinfo kept met s hdfrcv).2.tables.insertApp (newApp met hdfrcv (hashString aname) cols))
      fun s => (.ok hdfsnd, s.dropApp (hashString aname) (pidOf hdfrcv))).2 := fun _ =>
    exec_keeps hout fun t' ht => coherent_insertApp hout ht (newApp_aid _ _ _ _) (newApp_tuned hparams) _
  dsimp only
  split
  · exact hinsert _
  · exact hout
  · split
    · exact hout
    · exact hinsert _

theorem coherent_appup (h : Coherent kept qs s) : Coherent kept qs (aicCmdAppup kept met s hdfrcv).2 := by
  refine withParam_keeps h fun aname _ => ?_
  have hout : Coherent kept qs (aicCmdAppinfo kept met s hdfrcv).2 := coherent_appinfo h
  dsimp only
  split
  · exact hout
  · split
    · exact hout
    · split
      · exact hout
      · rename_i cols hcols
        exact exec_keeps hout fun t' ht =>
          coherent_updateApp hout ht (fun row => upApp_aid hcols row) (fun row => upApp_tuned hcols) _

theorem coherent_appdel (h : Coherent kept qs s) : Coherent kept qs (aicCmdAppdel kept met s hdfrcv).2 := by
  refine withParam_keeps h fun aname _ => ?_
  have hout : Coherent kept qs (aicCmdAppinfo kept met s hdfrcv).2 := coherent_appinfo h
  dsimp only
  split
  · exact hout
  · split
    · exact hout
    · refine exec_keeps hout fun t' ht => ?_
      cases ht
      exact coherent_deleteApp hout _ _

theorem coherent_setsecy (h : Coherent kept qs s) : Coherent kept qs (aicCmdAppSetsecy met s hdfrcv).2 := by
  refine withParam_keeps h fun pname _ => withParam_keeps h fun aname _ => exec_keeps h fun t' ht => ?_
  have hunset := coherent_retune h ht secy_unset
  dsimp only
  split
  · exact hunset
  · refine exec_keeps hunset fun t'' ht' => ?_
    exact ((((coherent_retune hunset ht' secy_set).delf _).delf _).delf _).delf _

theorem reqGetParamStr_withIds (hdfrcv : Dataset) (uid aid : ℤ) {name : String} (huid : name ≠ "uid")
    (haid : name ≠ "aid") : reqGetParamStr (withIds hdfrcv uid aid) name = reqGetParamStr hdfrcv name := by
  unfold reqGetParamStr
  rw [nonempty_withIds_of_ne hdfrcv uid aid huid haid]

theorem limitParam_withIds (hdfrcv : Dataset) (uid aid : ℤ) :
    limitParam (withIds hdfrcv uid aid) = limitParam hdfrcv := by
  have hvalue : hdfGetValue (withIds hdfrcv uid aid) "limit" = hdfGetValue hdfrcv "limit" := by
    unfold withIds hdfSetIntValue
    rw [hdfGetValue_set, if_neg (by decide), hdfGetValue_set, if_neg (by decide)]
  unfold limitParam hdfGetIntValue
  rw [hvalue]

theorem coherent_appuserin (h : Coherent kept qs s)
    (hasks : ∀ aname, reqGetParamStr hdfrcv "aname" = .ok aname →
      ∃ q ∈ qs, AsksUsers q (hashString aname) (limitParam hdfrcv)) :
    Coherent kept qs (aicCmdAppuserin kept met s hdfrcv).2 := by
  refine withParam_keeps h fun aname haname => withParam_keeps h fun uname huname => ?_
  have hout : Coherent kept qs
      (aicCmdAppusers kept met s (withIds hdfrcv (hashString uname) (hashString aname))).2 := by
    refine coherent_appusers h fun aname' haname' => ?_
    rw [reqGetParamStr_withIds _ _ _ (by decide) (by decide)] at haname'
    rw [limitParam_withIds]
    exact hasks aname' haname'
  dsimp only
  split
  · exact hout
  · split
    · exact hout
    · split
      · exact hout
      · rename_i cols hcols
        refine exec_keeps hout fun t' ht => coherent_users hout (insertUser_some ht).2 fun aid' hne => ?_
        exact usersIn_insert ht (newUser_isVisitor huname hcols).aid hne

theorem coherent_appuserout (h : Coherent kept qs s)
    (hasks : ∀ aname, reqGetParamStr hdfrcv "aname" = .ok aname →
      ∃ q ∈ qs, AsksUsers q (hashString aname) (limitParam hdfrcv)) :
    Coherent kept qs (aicCmdAppuserout kept met s hdfrcv).2 := by
  refine withParam_keeps h fun uname _ => withParam_keeps h fun aname _ => ?_
  have hout : Coherent kept qs (aicCmdAppusers kept met s hdfrcv).2 := coherent_appusers h hasks
  dsimp only
  split
  · exact hout
  · split
    · refine exec_keeps hout fun t' ht => ?_
      cases ht
      exact coherent_users hout rfl fun aid' hne => usersIn_delete _ hne
    · exact hout

theorem coherent_appuserup (h : Coherent kept qs s) : Coherent kept qs (aicCmdAppuserup met s hdfrcv).2 := by
  refine withParam_keeps h fun uid _ => withParam_keeps h fun aid _ => ?_
  split
  · exact h
  · rename_i cols hcols
    refine exec_keeps h fun t' ht => coherent_users h (updateUsers_some ht).2 fun aid' hne => ?_
    refine usersIn_update ht (fun row => ?_) hne
    obtain rfl := met.mnl.mcsBuildUpcol_ok hcols
    exact (touched_of_ne (by decide)).trans (assign_of_notMem (notMem_givenCols (by decide)))

theorem coherent_getrlink (h : Coherent kept qs s) : Coherent kept qs (aicCmdAppGetrlink met s hdfrcv).2 := by
  refine withParam_keeps h fun aname _ => ?_
  split
  · exact h
  · exact h
  · exact h

theorem coherent_setrlink (h : Coherent kept qs s) : Coherent kept qs (aicCmdAppSetrlink kept met s hdfrcv).2 := by
  refine withParam_keeps h fun aname _ => withParam_keeps h fun rlink _ => ?_
  have hout : Coherent kept qs (aicCmdAppinfo kept met s hdfrcv).2 := coherent_appinfo h
  dsimp only
  split
  · exact hout
  · split
    · exact hout
    · refine exec_keeps hout fun t' ht => ?_
      cases ht
      exact ⟨hout.tuned, hout.apps, hout.users⟩

theorem coherent_served (h : Coherent kept qs s) (q : AicRequested) :
    Coherent kept (qs ++ [q]) (served kept s q).2 := by
  have hlapsed : Coherent kept (qs ++ [q]) { s with cd := lapse s.cd q.met.gone } :=
    (h.later q).forget fun _ _ hr => lapse_eq_some hr
  have hasks : ∀ aname, reqGetParamStr q.hdfrcv "aname" = .ok aname →
      ∃ q' ∈ qs ++ [q], AsksUsers q' (hashString aname) (limitParam q.hdfrcv) := fun aname haname =>
    ⟨q, List.mem_append_right _ List.mem_cons_self, aname, haname, rfl, rfl⟩
  unfold served aicProcessDriver
  cases q.operation with
  | appinfo => exact coherent_appinfo hlapsed
  | appnew => exact coherent_appnew hlapsed
  | appup => exact coherent_appup hlapsed
  | appdel => exact coherent_appdel hlapsed
  | getsecy => exact coherent_getsecy hlapsed
  | setsecy => exact coherent_setsecy hlapsed
  | appusers => exact coherent_appusers hlapsed hasks
  | appuserin => exact coherent_appuserin hlapsed hasks
  | appuserout => exact coherent_appuserout hlapsed hasks
  | appuserup => exact coherent_appuserup hlapsed
  | appousers => exact coherent_appousers hlapsed
  | getrlink => exact coherent_getrlink hlapsed
  | setrlink => exact coherent_setrlink hlapsed

def start (t : AicTables) : AicPlugin := ⟨t, fun _ => none⟩

theorem coherent_start (ht : ∀ row ∈ t.appinfo.rows, Tuned row) : Coherent kept [] (start t) :=
  ⟨ht, fun _ _ h => absurd h (Option.some_ne_none _).symm, fun _ _ h => absurd h (Option.some_ne_none _).symm⟩

theorem coherent_after (kept : AicReply → AicReply) (ht : ∀ row ∈ t.appinfo.rows, Tuned row) (qs : List AicRequested) :
    Coherent kept qs (after kept (start t) qs) := by
  induction qs using List.reverseRecOn with
  | nil => exact coherent_start ht
  | append_singleton qs q ih =>
    rw [after, List.foldl_append]
    exact coherent_served ih q

/-- In every run, whatever has been cached, changed, lost and refused, `APPINFO` finds an app if and only if the table
has it, and shows its row; only the bit of the secretary and the day of the last change may be old. -/
theorem appinfo_shows (kept : AicReply → AicReply) (ht : ∀ row ∈ t.appinfo.rows, Tuned row)
    (qs : List AicRequested) (hop : q.operation = .appinfo)
    (haname : reqGetParamStr q.hdfrcv "aname" = .ok aname) :
    (∀ r, (served kept (after kept (start t) qs) q).1 = .ok r →
      ∃ row r₀, (after kept (start t) qs).tables.appinfo.find (.int (hashString aname)) = some row ∧
        ShowsApp row r₀.hdf ∧ (r = r₀ ∨ r = kept r₀)) ∧
    ((served kept (after kept (start t) qs) q).1 = .error .nregist →
      (after kept (start t) qs).tables.appinfo.find (.int (hashString aname)) = none) := by
  have hco := coherent_after kept ht qs
  have hserved : served kept (after kept (start t) qs) q =
      AppPlugin.cached kept { after kept (start t) qs with cd := lapse (after kept (start t) qs).cd q.met.gone }
        (appinfoText (hashString aname))
        (selectApp q.met (after kept (start t) qs).tables aname (hashString aname)) := by
    unfold served aicProcessDriver aicCmdAppinfo
    rw [hop, haname]
    rfl
  rw [hserved]
  constructor
  · intro r hr
    obtain hcached | hselect := cached_ok hr
    · obtain ⟨row, r₀, hrow, hshows, hkept⟩ := hco.apps _ r (lapse_eq_some hcached)
      exact ⟨row, r₀, hrow, hshows, .inr hkept⟩
    · obtain ⟨row, hrow, hshows⟩ := shows_selectApp hco.tuned hselect
      exact ⟨row, r, hrow, hshows, .inl rfl⟩
  · intro herr
    exact selectApp_nregist (cached_error herr).2

/-- The functions that are there now. -/
def successors : Mnl where
  mcsBuildUpcol data specs behind := if behind then buildCols data specs else mdbBuildUpcol data specs
  mcsBuildIncol := mdbBuildIncol
  mmiscPagediv hdfrcv :=
    let page := mdbPagediv hdfrcv
    (page, [("_npp", some (printInt page.count)), ("_npg", some (printInt page.npg)),
      ("_nst", some (printInt page.offset))])
  mmiscPagedivSetN ntt hdfsnd := hdfSetIntValue hdfsnd "_ntt" (ntt.getD 0)
  mcsBuildUpcol_ok {data specs behind cols} h := by
    split at h
    · exact (buildCols_ok.mp h).2
    · exact (mdbBuildUpcol_ok.mp h).2.1
  mcsBuildIncol_ok h := (mdbBuildIncol_ok.mp h).2.1

/-- Nothing is gone, and the server answers and takes everything. -/
def fair : Met :=
  ⟨fun _ => false, fun _ => true, fun _ => true, true, ascii "2012-01-01", ⟨id, fun _ => List.Perm.refl _⟩, successors⟩

def noTables : AicTables := ⟨Table.empty appKey, Table.empty userKey, fun _ => none⟩

theorem noTables_tuned : ∀ row ∈ noTables.appinfo.rows, Tuned row := fun _ h => absurd h List.not_mem_nil

def asks (operation : AicCmd) (hdfrcv : Dataset) : AicRequested := ⟨operation, hdfrcv, fair⟩

def registers (aname : Bytes) (pname : Option Bytes) : AicRequested :=
  asks .appnew [("aname", some aname), ("pname", pname), ("asn", some [49]), ("masn", some [49]), ("email", some [49]),
    ("state", some [49])]

/-- The site `s` with the admin `a`, who is its secretary when it is read; then the site itself is. -/
def secyMoved : List AicRequested :=
  [registers [115] none, registers [97] (some [115]), asks .setsecy [("pname", some [115]), ("aname", some [97])],
    asks .appinfo [("aname", some [97])], asks .setsecy [("pname", some [115]), ("aname", some [115])]]

/-- The admin is shown with the bit that it does not have any more. -/
theorem appinfo_shows_old :
    ∃ r row r₀, (served id (after id (start noTables) secyMoved) (asks .appinfo [("aname", some [97])])).1 = .ok r ∧
      (after id (start noTables) secyMoved).tables.appinfo.find (.int (hashString [97])) = some row ∧
      hdfGetValue r.hdf "tune" = some [52] ∧ row "tune" = .int 0 ∧ ShowsApp row r₀.hdf ∧ (r = r₀ ∨ r = id r₀) := by
  have hreply : (served id (after id (start noTables) secyMoved) (asks .appinfo [("aname", some [97])])).1.toOption.any
      (fun r => hdfGetValue r.hdf "tune" = some [52]) = true := by decide +kernel
  have hrow : ((after id (start noTables) secyMoved).tables.appinfo.find (.int (hashString [97]))).any
      (fun row => row "tune" = .int 0) = true := by decide +kernel
  cases hr : (served id (after id (start noTables) secyMoved) (asks .appinfo [("aname", some [97])])).1 with
  | error err =>
    rw [hr] at hreply
    cases hreply
  | ok r =>
    have haname : reqGetParamStr (asks .appinfo [("aname", some [97])]).hdfrcv "aname" = .ok [97] := rfl
    obtain ⟨row, r₀, hfind, hshows, hkept⟩ := (appinfo_shows id noTables_tuned secyMoved rfl haname).1 r hr
    rw [hr] at hreply
    rw [hfind] at hrow
    exact ⟨r, row, r₀, rfl, hfind, of_decide_eq_true hreply, of_decide_eq_true hrow, hshows, hkept⟩

def visits (operation : AicCmd) (uname : Bytes) : AicRequested :=
  asks operation [("aname", some [115]), ("uname", some uname), ("ip", some [49])]

def firstAsked : List AicRequested :=
  [visits .appuserin [97], visits .appuserin [98], asks .appusers [("aname", some [115]), ("limit", some [49])]]

def asksAll : AicRequested := asks .appusers [("aname", some [115])]

end Coherence

end Cmoon.AppCoherence
