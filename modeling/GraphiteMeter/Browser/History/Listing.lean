import GraphiteMeter.Browser.History.Store
import GraphiteMeter.Lib.FirstRanked

/-!
# History lists the newest of all that was saved

The store keeps the newest `HISTORY_LIMIT` readable rows only, and yet `list` shows what it would show
had nothing been pushed out: `listed` compares the store, over any sequence of its operations, with an
unlimited one (`Database.unlimited`). Rows that cannot be read are neither counted nor pushed out.

What is pushed out does not come back, so a row may be deleted only while everything saved still
stands, and a save takes a new id, as History's records do.

Reference: `client/src/app/history/repository.ts`.
-/

namespace GraphiteMeter.Browser.History

variable {ι : Type*} [LinearOrder ι]

/-- The operations that change the store. -/
inductive Op (ι : Type*)
  | put (record : Row ι) (clears : ℕ)
  | delete (id : ι)
  | clear
  | removeMalformed

namespace Database

def apply (db : Database ι) : Op ι → Database ι
  | .put record clears => (db.put record clears).db
  | .delete id => db.delete id
  | .clear => db.clear
  | .removeMalformed => db.removeMalformed

/-- The same where nothing is ever pushed out: what History would be for, without its limit. -/
def unlimited (db : Database ι) : Op ι → Database ι
  | .put record clears =>
    if clears < db.clears then db else { db with rows := replaced db.rows record }
  | op => db.apply op

end Database

/-! ## Ranked rows -/

instance : IsTrans (Row ι) Row.Newer := ⟨fun _ _ _ hab hbc => le_trans hbc hab⟩

instance : Std.Total (Row.Newer : Row ι → Row ι → Prop) := ⟨fun a b => le_total b.key a.key⟩

/-- The readable rows, the newest first. -/
def ranked (rows : List (Row ι)) : List (Row ι) :=
  (rows.filter (·.readable)).insertionSort Row.Newer

/-- A walk of the index meets every readable row. -/
theorem filter_newestFirst (rows : List (Row ι)) :
    (newestFirst rows).filter (·.readable) = ranked rows := by
  rw [newestFirst, FirstRanked.filter_insertionSort, List.filter_filter, ranked]
  congr 1
  refine List.filter_congr fun row _ => ?_
  cases hreadable : row.readable with
  | false => rfl
  | true => rw [row.completedAt_of_readable hreadable]; rfl

/-- The ranked rows are the readable ones. -/
theorem mem_ranked {rows : List (Row ι)} {row : Row ι} :
    row ∈ ranked rows ↔ row ∈ rows ∧ row.readable = true := by
  rw [ranked, List.mem_insertionSort, List.mem_filter]

/-- Ranking and filtering commute. -/
theorem ranked_filter (p : Row ι → Bool) (rows : List (Row ι)) :
    ranked (rows.filter p) = (ranked rows).filter p := by
  rw [ranked, ranked, FirstRanked.filter_insertionSort, List.filter_filter, List.filter_filter]
  simp only [Bool.and_comm]

/-- One more row is ranked where it belongs, if it is readable. -/
theorem ranked_cons (record : Row ι) (rows : List (Row ι)) :
    ranked (record :: rows) =
      if record.readable then (ranked rows).orderedInsert Row.Newer record else ranked rows := by
  rw [ranked]
  split
  next h => rw [List.filter_cons_of_pos h, List.insertionSort_cons, ranked]
  next h => rw [List.filter_cons_of_neg h, ranked]

/-- No identifier is ranked twice. -/
theorem ranked_ids_nodup {rows : List (Row ι)} (h : (rows.map Row.id).Nodup) :
    ((ranked rows).map Row.id).Nodup := by
  have hperm : (ranked rows).Perm (rows.filter (·.readable)) := List.perm_insertionSort _ _
  exact (hperm.map Row.id).nodup_iff.mpr (h.sublist (List.filter_sublist.map _))

/-! ## The walks -/

omit [LinearOrder ι] in
/-- What lies past the limit are the readable rows behind those it keeps. -/
theorem pastLimit_eq (limit kept : ℕ) (rows : List (Row ι)) :
    pastLimit limit kept rows = ((rows.filter (·.readable)).drop (limit - kept)).map Row.id := by
  induction rows generalizing kept with
  | nil => simp [pastLimit]
  | cons row rows ih =>
    rw [pastLimit]
    split
    next hreadable =>
      rw [List.filter_cons_of_pos hreadable, ih]
      split
      next hlt =>
        rw [Nat.sub_eq_zero_of_le (Nat.le_of_lt_succ hlt),
          Nat.sub_eq_zero_of_le hlt.le, List.drop_zero, List.drop_zero, List.map_cons]
      next hle =>
        obtain ⟨n, hn⟩ : ∃ n, limit - kept = n + 1 := ⟨limit - kept - 1, by omega⟩
        rw [hn, List.drop_succ_cons, show limit - (kept + 1) = n by omega]
    next hreadable => rw [List.filter_cons_of_neg hreadable, ih]

omit [LinearOrder ι] in
/-- What lies within the limit are its first readable rows. -/
theorem withinLimit_eq (limit readable : ℕ) (rows : List (Row ι)) :
    withinLimit limit readable rows = (rows.filter (·.readable)).take (limit - readable) := by
  induction rows generalizing readable with
  | nil => simp [withinLimit]
  | cons row rows ih =>
    rw [withinLimit]
    split
    next hreadable =>
      rw [List.filter_cons_of_pos hreadable, ih]
      split
      next hle =>
        obtain ⟨n, hn⟩ : ∃ n, limit - readable = n + 1 := ⟨limit - readable - 1, by omega⟩
        rw [hn, List.take_succ_cons, show limit - (readable + 1) = n by omega]
      next hlt =>
        rw [show limit - (readable + 1) = 0 by omega, show limit - readable = 0 by omega,
          List.take_zero, List.take_zero]
    next hreadable => rw [List.filter_cons_of_neg hreadable, ih]

namespace Database

/-- What a save pushes out is what ranks past the limit, whether or not the index was walked. -/
theorem pruned_eq (rows : List (Row ι)) :
    pruned rows = ((ranked rows).drop HISTORY_LIMIT).map Row.id := by
  rw [pruned]
  split
  next hle =>
    have hlength : (ranked rows).length ≤ HISTORY_LIMIT := by
      refine le_trans ?_ hle
      rw [← filter_newestFirst]
      refine (List.length_filter_le _ _).trans ?_
      rw [newestFirst, List.length_insertionSort]
    rw [List.drop_of_length_le hlength, List.map_nil]
  next => rw [pastLimit_eq, filter_newestFirst, Nat.sub_zero]

/-- A save leaves the first rows of the ranking, and every row it cannot read. -/
theorem without_pruned {rows : List (Row ι)} (h : (rows.map Row.id).Nodup) :
    ranked (without rows (pruned rows)) = (ranked rows).take HISTORY_LIMIT ∧
      (without rows (pruned rows)).filter (!·.readable) = rows.filter (!·.readable) := by
  rw [pruned_eq]
  constructor
  · rw [without, ranked_filter]
    exact FirstRanked.filter_not_mem_drop (ranked rows) HISTORY_LIMIT (ranked_ids_nodup h)
  · rw [without, List.filter_filter]
    refine List.filter_congr fun row hrow => ?_
    cases hreadable : row.readable with
    | true => rfl
    | false =>
      -- A row pushed out is readable, and no other row has its id.
      have hkept : row.id ∉ ((ranked rows).drop HISTORY_LIMIT).map Row.id := by
        intro hmem
        obtain ⟨other, hother, hid⟩ := List.mem_map.mp hmem
        obtain ⟨hin, hread⟩ := mem_ranked.mp (List.mem_of_mem_drop hother)
        rw [List.inj_on_of_nodup_map h hin hrow hid, hreadable] at hread
        cases hread
      rw [decide_eq_true hkept]
      rfl

/-! ## Against the unlimited store -/

/-- The store against one that pushes nothing out: the first of the same ranking, and the same rows
that cannot be read. -/
structure Trims (all db : Database ι) : Prop where
  ids : (all.rows.map Row.id).Nodup
  ids_kept : (db.rows.map Row.id).Nodup
  clears : db.clears = all.clears
  ranked : ranked db.rows = (ranked all.rows).take HISTORY_LIMIT
  malformed : db.rows.filter (!·.readable) = all.rows.filter (!·.readable)

/-- What an operation may not do to the unlimited store: save under an id it has, or delete once it
holds more than the limit. -/
def Fits (all : Database ι) : Op ι → Prop
  | .put record _ => ∀ row ∈ all.rows, row.id ≠ record.id
  | .delete _ => (all.rows.filter (·.readable)).length ≤ HISTORY_LIMIT
  | _ => True

/-- Every operation of a sequence fits the unlimited store it comes to. -/
def Fitting (all : Database ι) : List (Op ι) → Prop
  | [] => True
  | op :: ops => Fits all op ∧ Fitting (all.unlimited op) ops

instance decidableFits (all : Database ι) : (op : Op ι) → Decidable (Fits all op)
  | .put record _ => inferInstanceAs (Decidable (∀ row ∈ all.rows, row.id ≠ record.id))
  | .delete _ => inferInstanceAs (Decidable (_ ≤ HISTORY_LIMIT))
  | .clear => isTrue trivial
  | .removeMalformed => isTrue trivial

instance decidableFitting : (all : Database ι) → (ops : List (Op ι)) → Decidable (Fitting all ops)
  | _, [] => isTrue trivial
  | all, op :: ops =>
    let _ : Decidable (Fitting (all.unlimited op) ops) := decidableFitting (all.unlimited op) ops
    inferInstanceAs (Decidable (Fits all op ∧ _))

/-- A trimmed database has only rows of the whole one. -/
theorem Trims.subset {all db : Database ι} (h : Trims all db) : db.rows ⊆ all.rows := by
  intro row hrow
  cases hreadable : row.readable with
  | true =>
    have hmem : row ∈ History.ranked db.rows := mem_ranked.mpr ⟨hrow, hreadable⟩
    rw [h.ranked] at hmem
    exact (mem_ranked.mp (List.mem_of_mem_take hmem)).1
  | false =>
    have hmem : row ∈ db.rows.filter (!·.readable) := List.mem_filter.mpr ⟨hrow, by simp [hreadable]⟩
    rw [h.malformed] at hmem
    exact List.mem_of_mem_filter hmem

omit [LinearOrder ι] in
/-- A record of a new identifier leaves the identifiers distinct. -/
theorem ids_cons_nodup {rows : List (Row ι)} {record : Row ι} (h : (rows.map Row.id).Nodup)
    (hnew : ∀ row ∈ rows, row.id ≠ record.id) : ((record :: rows).map Row.id).Nodup := by
  rw [List.map_cons, List.nodup_cons]
  refine ⟨fun hmem => ?_, h⟩
  obtain ⟨row, hrow, hid⟩ := List.mem_map.mp hmem
  exact hnew row hrow hid

/-- A record of a new id replaces nothing. -/
theorem replaced_new {rows : List (Row ι)} {record : Row ι}
    (hnew : ∀ row ∈ rows, row.id ≠ record.id) : replaced rows record = record :: rows := by
  rw [replaced, without, List.filter_eq_self.mpr]
  intro row hrow
  simp [hnew row hrow]

/-- Putting a new record keeps the trimming. -/
theorem Trims.put {all db : Database ι} {record : Row ι} {clears : ℕ} (h : Trims all db)
    (hnew : ∀ row ∈ all.rows, row.id ≠ record.id) :
    Trims (all.unlimited (.put record clears)) (db.apply (.put record clears)) := by
  have hkept : ∀ row ∈ db.rows, row.id ≠ record.id := fun row hrow => hnew row (h.subset hrow)
  rw [Database.unlimited, Database.apply, Database.put, h.clears, replaced_new hnew,
    replaced_new hkept]
  split
  next => exact h
  next =>
    have hnodup := ids_cons_nodup h.ids_kept hkept
    obtain ⟨hranked, hmalformed⟩ := without_pruned hnodup
    refine ⟨ids_cons_nodup h.ids hnew, hnodup.sublist (List.filter_sublist.map _), rfl, ?_, ?_⟩
    · rw [hranked, ranked_cons, ranked_cons, h.ranked]
      split
      · exact FirstRanked.take_orderedInsert_take record _ HISTORY_LIMIT
      · rw [List.take_take, min_self]
    · rw [hmalformed]
      cases hreadable : record.readable with
      | true => simp only [List.filter_cons, hreadable, h.malformed]
      | false => simp only [List.filter_cons, hreadable, h.malformed]

/-- Every operation that fits keeps the store to the first of what the unlimited one ranks. -/
theorem Trims.step {all db : Database ι} {op : Op ι} (h : Trims all db) (hfits : Fits all op) :
    Trims (all.unlimited op) (db.apply op) := by
  cases op with
  | put record clears => exact h.put hfits
  | delete id =>
    have hlength : (History.ranked all.rows).length ≤ HISTORY_LIMIT := by
      rw [History.ranked, List.length_insertionSort]
      exact hfits
    have hsame : History.ranked db.rows = History.ranked all.rows := by
      rw [h.ranked, List.take_of_length_le hlength]
    refine ⟨h.ids.sublist (List.filter_sublist.map _), h.ids_kept.sublist (List.filter_sublist.map _),
      h.clears, ?_, ?_⟩
    · show History.ranked (db.rows.filter _) = (History.ranked (all.rows.filter _)).take _
      rw [ranked_filter, ranked_filter, hsame, List.take_of_length_le]
      exact (List.length_filter_le _ _).trans hlength
    · show (db.rows.filter _).filter _ = (all.rows.filter _).filter _
      rw [List.filter_comm, h.malformed, List.filter_comm]
  | clear =>
    exact ⟨List.nodup_nil, List.nodup_nil, congrArg (· + 1) h.clears, rfl, rfl⟩
  | removeMalformed =>
    have hnone : ∀ rows : List (Row ι), (rows.filter (·.readable)).filter (!·.readable) = [] := by
      intro rows
      rw [List.filter_filter]
      exact List.filter_eq_nil_iff.mpr fun row _ => by cases row.readable <;> decide
    have hranked : ∀ rows : List (Row ι),
        History.ranked (rows.filter (·.readable)) = History.ranked rows := by
      intro rows
      rw [History.ranked, List.filter_filter, History.ranked]
      simp only [Bool.and_self]
    refine ⟨h.ids.sublist (List.filter_sublist.map _), h.ids_kept.sublist (List.filter_sublist.map _),
      h.clears, ?_, (hnone _).trans (hnone _).symm⟩
    show History.ranked (db.rows.filter _) = (History.ranked (all.rows.filter _)).take _
    rw [hranked, hranked, h.ranked]

/-- **Every run** that fits keeps the trimming. -/
theorem Trims.run {all db : Database ι} {ops : List (Op ι)} (h : Trims all db)
    (hfitting : Fitting all ops) : Trims (ops.foldl unlimited all) (ops.foldl apply db) := by
  induction ops generalizing all db with
  | nil => exact h
  | cons op ops ih => exact ih (h.step hfitting.1) hfitting.2

/-- The listing of a store that trims another. -/
theorem Trims.list {all db : Database ι} (h : Trims all db) :
    db.list = ((History.ranked all.rows).take HISTORY_LIMIT,
      (all.rows.filter (!·.readable)).length) := by
  have hsplit : db.rows.length
      = (db.rows.filter (·.readable)).length + (db.rows.filter (!·.readable)).length :=
    List.length_eq_length_filter_add _
  have hread : ((newestFirst db.rows).filter (·.readable)).length
      = (db.rows.filter (·.readable)).length := by
    rw [filter_newestFirst, History.ranked, List.length_insertionSort]
  refine Prod.ext ?_ ?_
  · show withinLimit HISTORY_LIMIT 0 (newestFirst db.rows) = _
    rw [withinLimit_eq, Nat.sub_zero, filter_newestFirst, h.ranked, List.take_take, min_self]
  · show db.rows.length - ((newestFirst db.rows).filter (·.readable)).length = _
    rw [hread, hsplit, Nat.add_sub_cancel_left, h.malformed]

/-- Refused as older than what History keeps, exactly when it would not be listed. -/
theorem Trims.refused {all db : Database ι} (h : Trims all db) {record : Row ι} {clears : ℕ}
    (hreadable : record.readable = true) (hnew : ∀ row ∈ all.rows, row.id ≠ record.id)
    (hclears : db.clears ≤ clears) :
    record.id ∈ (db.put record clears).pruned ↔ record ∉ (db.put record clears).db.list.1 := by
  have hkept : ∀ row ∈ db.rows, row.id ≠ record.id := fun row hrow => hnew row (h.subset hrow)
  have hnodup := ids_cons_nodup h.ids_kept hkept
  have hlist : (db.put record clears).db.list.1
      = (History.ranked (record :: db.rows)).take HISTORY_LIMIT := by
    show withinLimit HISTORY_LIMIT 0 (newestFirst (db.put record clears).db.rows) = _
    rw [withinLimit_eq, Nat.sub_zero, filter_newestFirst, Database.put, replaced_new hkept,
      if_neg (Nat.not_lt.mpr hclears)]
    dsimp only
    rw [(without_pruned hnodup).1, List.take_take, min_self]
  have hpruned : (db.put record clears).pruned
      = ((History.ranked (record :: db.rows)).drop HISTORY_LIMIT).map Row.id := by
    rw [Database.put, replaced_new hkept, if_neg (Nat.not_lt.mpr hclears), pruned_eq]
  have hsplit := ranked_ids_nodup hnodup
  rw [← List.take_append_drop HISTORY_LIMIT (History.ranked (record :: db.rows)), List.map_append,
    List.nodup_append] at hsplit
  rw [hlist, hpruned]
  constructor
  · intro hmem htake
    exact hsplit.2.2 _ (List.mem_map_of_mem htake) _ hmem rfl
  · intro htake
    have hin : record ∈ History.ranked (record :: db.rows) :=
      mem_ranked.mpr ⟨List.mem_cons_self, hreadable⟩
    rw [← List.take_append_drop HISTORY_LIMIT (History.ranked (record :: db.rows)),
      List.mem_append] at hin
    exact List.mem_map_of_mem (hin.resolve_left htake)

/-- After any sequence of operations that fit, from a store within its limit, History lists the newest
`HISTORY_LIMIT` readable rows of all that was saved and stands, counts the rows it cannot read, holds
no more than its limit, and has refused a record as too old exactly where it does not list it. -/
theorem listed {db : Database ι} {ops : List (Op ι)} (hids : (db.rows.map Row.id).Nodup)
    (hlimit : (db.rows.filter (·.readable)).length ≤ HISTORY_LIMIT) (hfitting : Fitting db ops) :
    (ops.foldl apply db).list =
        ((History.ranked (ops.foldl unlimited db).rows).take HISTORY_LIMIT,
          ((ops.foldl unlimited db).rows.filter (!·.readable)).length) ∧
      ((ops.foldl apply db).rows.filter (·.readable)).length ≤ HISTORY_LIMIT ∧
      ∀ record clears, record.readable = true → Fits (ops.foldl unlimited db) (.put record clears) →
        (ops.foldl apply db).clears ≤ clears →
          (record.id ∈ ((ops.foldl apply db).put record clears).pruned ↔
            record ∉ ((ops.foldl apply db).put record clears).db.list.1) := by
  have hlength : (History.ranked db.rows).length ≤ HISTORY_LIMIT := by
    rw [History.ranked, List.length_insertionSort]
    exact hlimit
  have hstart : Trims db db := ⟨hids, hids, rfl, (List.take_of_length_le hlength).symm, rfl⟩
  have hrun := hstart.run hfitting
  refine ⟨hrun.list, ?_, fun record clears hreadable hnew hclears =>
    hrun.refused hreadable hnew hclears⟩
  have hkept := congrArg List.length hrun.ranked
  rw [History.ranked, List.length_insertionSort, List.length_take] at hkept
  omega

/-! ## At the limit -/

/-- The results `0`, ..., `n - 1`, the newest first: each was completed at the time of its id. -/
def results : ℕ → List (Row ℕ)
  | 0 => []
  | n + 1 => .finished n n :: results n

/-- Each of the finished rows is one of the numbered. -/
theorem mem_results {n : ℕ} {row : Row ℕ} (h : row ∈ results n) :
    ∃ i < n, row = .finished i i := by
  induction n with
  | zero => cases h
  | succ n ih =>
    rcases List.mem_cons.mp h with rfl | h
    · exact ⟨n, Nat.lt_succ_self n, rfl⟩
    · obtain ⟨i, hi, rfl⟩ := ih h
      exact ⟨i, hi.trans (Nat.lt_succ_self n), rfl⟩

/-- Finished rows are readable. -/
theorem readable_of_mem_results {n : ℕ} {row : Row ℕ} (h : row ∈ results n) : row.readable = true := by
  obtain ⟨i, -, rfl⟩ := mem_results h
  rfl

/-- There are as many finished rows as asked for. -/
theorem length_results (n : ℕ) : (results n).length = n := by
  induction n with
  | zero => rfl
  | succ n ih => rw [results, List.length_cons, ih]

/-- A later result has another id than those before it. -/
theorem id_ne_of_mem_results {n m : ℕ} (hle : n ≤ m) (completedAt : ℚ) :
    ∀ row ∈ results n, row.id ≠ (Row.finished m completedAt).id := by
  intro row hrow heq
  obtain ⟨i, hi, rfl⟩ := mem_results hrow
  exact absurd (heq : i = m) (Nat.ne_of_lt (hi.trans_le hle))

/-- The finished rows have distinct identifiers. -/
theorem results_ids_nodup (n : ℕ) : ((results n).map Row.id).Nodup := by
  induction n with
  | zero => exact List.nodup_nil
  | succ n ih => exact ids_cons_nodup ih (id_ne_of_mem_results le_rfl n)

/-- They stand in the order of the index. -/
theorem ranked_results (n : ℕ) : History.ranked (results n) = results n := by
  rw [History.ranked, List.filter_eq_self.mpr fun row hrow => readable_of_mem_results hrow]
  apply List.Pairwise.insertionSort_eq
  induction n with
  | zero => exact List.Pairwise.nil
  | succ n ih =>
    refine List.pairwise_cons.mpr ⟨fun row hrow => ?_, ih⟩
    obtain ⟨i, hi, rfl⟩ := mem_results hrow
    have hlt : (i : ℚ) < n := by exact_mod_cast hi
    exact (Prod.Lex.toLex_lt_toLex.mpr (.inl hlt)).le

/-- A result that was completed before all of them comes last. -/
theorem ranked_old {n : ℕ} (id : ℕ) {completedAt : ℚ} (hold : completedAt < 0) :
    History.ranked (.finished id completedAt :: results n) =
      results n ++ [.finished id completedAt] := by
  have hreadable : (Row.finished id completedAt).readable = true := rfl
  rw [ranked_cons, if_pos hreadable, ranked_results]
  induction n with
  | zero => rfl
  | succ n ih =>
    have hlater : ¬ Row.Newer (Row.finished id completedAt) (.finished n n) := by
      intro hle
      have hn : (0 : ℚ) ≤ n := by exact_mod_cast Nat.zero_le n
      exact absurd hle (not_le.mpr (Prod.Lex.toLex_lt_toLex.mpr (.inl (hold.trans_le hn))))
    rw [results, List.orderedInsert, if_neg hlater, ih]
    rfl

/-- One result more than the store keeps, and one that is older than all of them. -/
def pastTheLimit : List (Op ℕ) :=
  [.put (.finished HISTORY_LIMIT HISTORY_LIMIT) 0, .put (.finished (HISTORY_LIMIT + 1) (-1)) 0]

/-- From a store at its limit, the newest result is listed and the oldest is pushed out; a result older
than all that is kept is refused. -/
theorem listed_pastTheLimit :
    (pastTheLimit.foldl apply ⟨results HISTORY_LIMIT, 0⟩).list.1 =
        (results (HISTORY_LIMIT + 1)).take HISTORY_LIMIT ∧
      HISTORY_LIMIT + 1 ∈ (((pastTheLimit.take 1).foldl apply ⟨results HISTORY_LIMIT, 0⟩).put
        (.finished (HISTORY_LIMIT + 1) (-1)) 0).pruned := by
  have hids := results_ids_nodup HISTORY_LIMIT
  have hlimit : ((results HISTORY_LIMIT).filter (·.readable)).length ≤ HISTORY_LIMIT :=
    (List.length_filter_le _ _).trans (length_results _).le
  have hfirst : ∀ row ∈ results HISTORY_LIMIT,
      row.id ≠ (Row.finished HISTORY_LIMIT (HISTORY_LIMIT : ℚ)).id := id_ne_of_mem_results le_rfl _
  have hnewest : replaced (results HISTORY_LIMIT) (.finished HISTORY_LIMIT HISTORY_LIMIT) =
      results (HISTORY_LIMIT + 1) := replaced_new hfirst
  have hsecond : ∀ row ∈ results (HISTORY_LIMIT + 1),
      row.id ≠ (Row.finished (HISTORY_LIMIT + 1) (-1)).id := id_ne_of_mem_results le_rfl _
  have hall : pastTheLimit.foldl unlimited ⟨results HISTORY_LIMIT, 0⟩ =
      ⟨.finished (HISTORY_LIMIT + 1) (-1) :: results (HISTORY_LIMIT + 1), 0⟩ := by
    show (⟨replaced (replaced _ _) _, 0⟩ : Database ℕ) = _
    rw [hnewest, replaced_new hsecond]
  have hfits : Fits ((pastTheLimit.take 1).foldl unlimited ⟨results HISTORY_LIMIT, 0⟩)
      (.put (.finished (HISTORY_LIMIT + 1) (-1)) 0) := by
    show ∀ row ∈ replaced _ _, _
    rw [hnewest]
    exact hsecond
  have hfitting : Fitting ⟨results HISTORY_LIMIT, 0⟩ pastTheLimit := ⟨hfirst, hfits, trivial⟩
  have hlist : (pastTheLimit.foldl apply ⟨results HISTORY_LIMIT, 0⟩).list.1 = _ :=
    congrArg Prod.fst (listed hids hlimit hfitting).1
  rw [hall, ranked_old _ (by decide +kernel),
    List.take_append_of_le_length ((length_results _).symm ▸ Nat.le_succ _)] at hlist
  refine ⟨hlist, ?_⟩
  have hbefore : Fitting ⟨results HISTORY_LIMIT, 0⟩ (pastTheLimit.take 1) := ⟨hfirst, trivial⟩
  refine ((listed hids hlimit hbefore).2.2 _ 0 rfl hfits (Nat.zero_le _)).mpr fun hmem => ?_
  -- what is listed then is what is listed at the end
  have hlisted : Row.finished (HISTORY_LIMIT + 1) (-1) ∈
      (pastTheLimit.foldl apply ⟨results HISTORY_LIMIT, 0⟩).list.1 := hmem
  rw [hlist] at hlisted
  exact hsecond _ (List.mem_of_mem_take hlisted) rfl

end Database

end GraphiteMeter.Browser.History
