import MempoolArchiver.Merge

/-!
# Reading back what the merge writes

The metadata CSV of one merge is meant to be the tx-blacklist of the next, and its
transactions CSV an input file of a later load. `LoadTxHashesFromMetadataCSVFiles` reads
the first with `encoding/csv`; `LoadTransactionCSVFiles` reads the second line by line.
Both read back what was written: every field a summary renders is plain text for
`encoding/csv`, and every line of the transactions CSV passes the loader's length, field
count and timestamp checks, while its header line does not.
-/

namespace MempoolArchiver

open Csv

theorem mem_writtenRows {S : SortSlice} {enum : List (Sigma fun _ : Bytes => TxSummaryEntry)}
    {t : TxSummaryEntry} (ht : t ∈ writtenRows S enum) : ∃ e ∈ enum, e.2 = t := by
  obtain ⟨e, he, rfl⟩ := List.mem_map.mp ((S.sort_perm _ _).subset (List.mem_filter.mp ht).1)
  exact ⟨e, he, rfl⟩

/-! ## The metadata CSV -/

theorem header_plain : ∀ f ∈ txSummaryEntryCSVHeader, Plain f := by
  show ∀ f ∈ txSummaryEntryCSVHeader, ∀ b ∈ f, plainByte b = true
  decide

theorem readAll_metadata (lib : Lib) (rows : List TxSummaryEntry)
    (hrows : ∀ t ∈ rows, ∃ ts tx, t.toCSVRow = (summarize lib ts tx).toCSVRow) :
    readAll (writeRecords (txSummaryEntryCSVHeader :: rows.map (·.toCSVRow))) =
      .ok (txSummaryEntryCSVHeader :: rows.map (·.toCSVRow)) := by
  apply readAll_writeRecords _ 13 <;> simp only [List.mem_cons, List.mem_map]
  · rintro r (rfl | ⟨t, ht, rfl⟩)
    · exact header_plain
    · obtain ⟨ts, tx, h⟩ := hrows t ht
      rw [h]
      exact summarize_row_plain lib ts tx
  · rintro r (rfl | ⟨t, -, rfl⟩) <;> rfl
  · rintro r (rfl | ⟨t, -, rfl⟩)
    · decide
    · simp [TxSummaryEntry.toCSVRow, joinComma_cons_cons]

theorem hashesOfRecords_rows (lib : Lib) (rows : List TxSummaryEntry) :
    hashesOfRecords lib (rows.map (·.toCSVRow)) =
      rows.map fun t => toLower lib.unicodeLower t.hash := by
  induction rows with
  | nil => rfl
  | cons t rows ih =>
    simp only [hashesOfRecords, List.map_cons, List.filterMap_cons,
      TxSummaryEntry.toCSVRow] at ih ⊢
    rw [ih]

/-- Whatever order the merge writes its rows in, when every row is one `parseTx` rendered,
`encoding/csv` reads the metadata CSV back as its header and the rows written, and
`LoadTxHashesFromMetadataCSVFiles` on it returns `hash` and the hash of every row written:
as a tx-blacklist it lists exactly the transactions the merge wrote. -/
theorem metadata_blacklists_written (lib : Lib) (S : SortSlice) (writeTxCSV : Bool)
    (enum : List (Sigma fun _ : Bytes => TxSummaryEntry))
    (henum : ∀ e ∈ enum, ∃ ts tx, e.2.toCSVRow = (summarize lib ts tx).toCSVRow)
    (fs : FileSystem) (file : Bytes)
    (hfile : fs file = some (writeOutputs S writeTxCSV enum).metadata) :
    readAll (writeOutputs S writeTxCSV enum).metadata =
      .ok (txSummaryEntryCSVHeader :: (writeOutputs S writeTxCSV enum).parquet.map (·.toCSVRow)) ∧
    loadTxHashesFromMetadataCSVFiles lib fs [file] =
      lit "hash" :: (writeOutputs S writeTxCSV enum).parquet.map (·.hash) := by
  have hrows : ∀ t ∈ writtenRows S enum, ∃ ts tx, t.toCSVRow = (summarize lib ts tx).toCSVRow :=
    fun t ht => by
      obtain ⟨e, he, rfl⟩ := mem_writtenRows ht
      exact henum e he
  have hread := readAll_metadata lib _ hrows
  rw [writeOutputs_eq] at hfile ⊢
  refine ⟨hread, ?_⟩
  simp only [loadTxHashesFromMetadataCSVFiles, loadTxHashes, hfile, hread, List.nil_append]
  rw [show hashesOfRecords lib (txSummaryEntryCSVHeader :: (writtenRows S enum).map (·.toCSVRow)) =
      toLower lib.unicodeLower (lit "hash") :: hashesOfRecords lib
        ((writtenRows S enum).map (·.toCSVRow)) from rfl,
    hashesOfRecords_rows, toLower_of_lower _ _ (by decide)]
  refine congrArg _ (List.map_congr_left fun t ht => ?_)
  obtain ⟨ts, tx, h⟩ := hrows t ht
  have hhash : t.hash = tx.hash.hex := by
    simp only [TxSummaryEntry.toCSVRow, summarize, List.cons.injEq] at h
    exact h.2.1
  rw [hhash, toLower_hashHex]

def sampleEntry : TxSummaryEntry :=
  { summarize sampleLib Int64.zero sampleTx with rawTxHex := lit "0x01" }

/-- Two keys whose lines carry one payload, seen at 5 and at 2. -/
def sampleEnum : List (Sigma fun _ : Bytes => TxSummaryEntry) :=
  [⟨lit "k1", { sampleEntry with timestamp := Int64.ofNat 5 (by decide) }⟩,
    ⟨lit "k2", { sampleEntry with timestamp := Int64.ofNat 2 (by decide) }⟩]

theorem sampleEnum_rendered :
    ∀ e ∈ sampleEnum, ∃ ts tx, e.2.toCSVRow = (summarize sampleLib ts tx).toCSVRow := by
  intro e he
  simp only [sampleEnum, List.mem_cons, List.mem_singleton, List.not_mem_nil, or_false] at he
  rcases he with rfl | rfl <;> exact ⟨_, _, rfl⟩

def metadataFs : FileSystem := fun f =>
  if f = lit "metadata.csv" then some (writeOutputs insertionSortSlice false sampleEnum).metadata
  else none

theorem sample_metadata_blacklists_written :
    (∀ e ∈ sampleEnum, ∃ ts tx, e.2.toCSVRow = (summarize sampleLib ts tx).toCSVRow) ∧
    metadataFs (lit "metadata.csv") = some (writeOutputs insertionSortSlice false sampleEnum).metadata ∧
    readAll (writeOutputs insertionSortSlice false sampleEnum).metadata =
      .ok (txSummaryEntryCSVHeader ::
        (writeOutputs insertionSortSlice false sampleEnum).parquet.map (·.toCSVRow)) ∧
    loadTxHashesFromMetadataCSVFiles sampleLib metadataFs [lit "metadata.csv"] =
      lit "hash" :: (writeOutputs insertionSortSlice false sampleEnum).parquet.map (·.hash) :=
  ⟨sampleEnum_rendered, if_pos rfl, metadata_blacklists_written sampleLib insertionSortSlice false
    sampleEnum sampleEnum_rendered metadataFs _ (if_pos rfl)⟩

/-! ## The transactions CSV -/

def txCSVObservation (t : TxSummaryEntry) : Observation := ⟨t.timestamp, t.hash, t.rawTxHex⟩

theorem readLines_flatMap (ls : List Bytes) (h : ∀ l ∈ ls, ∀ b ∈ l, b ≠ 10) :
    readLines (ls.flatMap (· ++ [10])) = ls.map (· ++ [10]) := by
  induction ls with
  | nil => rfl
  | cons l ls ih =>
    simp only [List.mem_cons, forall_eq_or_imp] at h
    rw [List.flatMap_cons, List.append_assoc, List.singleton_append, readLines_line _ _ h.1,
      ih h.2, List.map_cons]

theorem txCSVFields_ge {t : TxSummaryEntry} (hh : ∃ h : Hash, t.hash = h.hex)
    (hr : ∃ bs, t.rawTxHex = hexEncode bs) :
    ∀ f ∈ [fmtInt t.timestamp.val, t.hash, t.rawTxHex], ∀ b ∈ f, 45 ≤ b.toNat := by
  obtain ⟨h, hh⟩ := hh
  obtain ⟨bs, hr⟩ := hr
  simp only [List.mem_cons, List.mem_singleton, List.not_mem_nil, or_false]
  rintro f (rfl | rfl | rfl) b hb
  · exact fmtInt_ge _ b hb
  · rw [hh] at hb
    exact (hexEncode_ge _ b hb).trans' (by omega)
  · rw [hr] at hb
    exact (hexEncode_ge _ b hb).trans' (by omega)

theorem joinComma_ne_newline {fs : List Bytes} (hge : ∀ f ∈ fs, ∀ b ∈ f, 45 ≤ b.toNat) :
    ∀ b ∈ joinComma fs, b ≠ 10 := by
  intro b hb h10
  subst h10
  rcases mem_joinComma hb with h | ⟨f, hf, hbf⟩
  · exact absurd h (by decide)
  · exact absurd (hge f hf _ hbf) (by decide)

theorem observe_txCSVLine (lib : Lib) {t : TxSummaryEntry} (hh : ∃ h : Hash, t.hash = h.hex)
    (hr : ∃ bs, t.rawTxHex = hexEncode bs) :
    observe lib (txCSVLine t) = some (txCSVObservation t) := by
  have hge := txCSVFields_ge hh hr
  obtain ⟨h, hh⟩ := hh
  have hlen : ¬(txCSVLine t).length < 66 := by
    simp only [txCSVLine, joinComma_cons_cons, joinComma_singleton, List.length_append,
      List.length_cons, hh, hashHex_length, List.length_nil]
    omega
  have hcomma : ∀ f ∈ [fmtInt t.timestamp.val, t.hash, t.rawTxHex], 44 ∉ f :=
    fun f hf h44 => absurd (hge f hf 44 h44) (by decide)
  rw [observe, if_neg hlen, txCSVLine, trimNewlines_line _ (joinComma_ne_newline hge),
    splitComma_joinComma _ hcomma (by simp)]
  simp [atoi_fmtInt, txCSVObservation, hh, toLower_hashHex]

theorem observations_txCSV (lib : Lib) (rows : List TxSummaryEntry)
    (hrows : ∀ t ∈ rows, (∃ h : Hash, t.hash = h.hex) ∧ ∃ bs, t.rawTxHex = hexEncode bs) :
    observations lib (txCSVHeader ++ rows.flatMap txCSVLine) = rows.map txCSVObservation := by
  let body := fun t : TxSummaryEntry => joinComma [fmtInt t.timestamp.val, t.hash, t.rawTxHex]
  have hsplit : txCSVHeader ++ rows.flatMap txCSVLine =
      (lit "timestamp_ms,hash,raw_tx" :: rows.map body).flatMap (· ++ [10]) := by
    rw [List.flatMap_cons, List.flatMap_map]
    rfl
  have hlines : ∀ l ∈ lit "timestamp_ms,hash,raw_tx" :: rows.map body, ∀ b ∈ l, b ≠ 10 := by
    simp only [List.mem_cons, List.mem_map]
    rintro l (rfl | ⟨t, ht, rfl⟩)
    · decide
    · exact joinComma_ne_newline (txCSVFields_ge (hrows t ht).1 (hrows t ht).2)
  rw [observations, hsplit, readLines_flatMap _ hlines, List.map_cons, List.filterMap_cons,
    observe, if_pos (by decide)]
  dsimp only
  rw [List.map_map, List.filterMap_map, Function.comp_def, Function.comp_def]
  exact (List.filterMap_congr fun t ht => observe_txCSVLine lib (hrows t ht).1 (hrows t ht).2).trans
    (congrFun (List.filterMap_eq_map txCSVObservation) rows)

/-- With `write-tx-csv` set, when every entry's payload is hex that `RLPStringToTx` decodes to
a transaction with the entry's `Hash`, loading the transactions CSV with no blacklist skips
its header and gives back the hashes written as keys: each key's entry carries the payload
and the decoded summary of the first row written with that hash, at the least timestamp of
the rows with that hash. -/
theorem transactions_csv_reloads (lib : Lib) (S : SortSlice)
    (enum : List (Sigma fun _ : Bytes => TxSummaryEntry))
    (hdecode : ∀ e ∈ enum, ∃ tx, lib.rlpStringToTx e.2.rawTxHex = some tx ∧ e.2.hash = tx.hash.hex)
    (hhex : ∀ e ∈ enum, ∃ bs, e.2.rawTxHex = hexEncode bs)
    (fs : FileSystem) (file : Bytes) (hfile : fs file = (writeOutputs S true enum).transactions)
    (k : Bytes) :
    (((loadTransactionCSVFiles lib fs [file] []).lookup k).isSome ↔
      k ∈ (writeOutputs S true enum).parquet.map (·.hash)) ∧
    ∀ env, (loadTransactionCSVFiles lib fs [file] []).lookup k = some env →
      ∃ t rest tx, (writeOutputs S true enum).parquet.filter (·.hash = k) = t :: rest ∧
        lib.rlpStringToTx t.rawTxHex = some tx ∧ env.rlp = t.rawTxHex ∧
        env.summary = summarize lib env.summary.timestamp tx ∧
        env.summary.timestamp ∈ (t :: rest).map (·.timestamp) ∧
        ∀ t' ∈ t :: rest, env.summary.timestamp ≤ t'.timestamp := by
  rw [writeOutputs_eq] at hfile ⊢
  simp only [if_true] at hfile ⊢
  have hW : ∀ t ∈ writtenRows S enum,
      (∃ tx, lib.rlpStringToTx t.rawTxHex = some tx ∧ t.hash = tx.hash.hex) ∧
        ∃ bs, t.rawTxHex = hexEncode bs := fun t ht => by
    obtain ⟨e, he, rfl⟩ := mem_writtenRows ht
    exact ⟨hdecode e he, hhex e he⟩
  have hobs : fileObservations lib fs [file] = (writtenRows S enum).map txCSVObservation := by
    simp only [fileObservations, List.flatMap_cons, List.flatMap_nil, List.append_nil, hfile,
      Option.getD_some]
    refine observations_txCSV lib _ fun t ht => ⟨?_, (hW t ht).2⟩
    obtain ⟨tx, -, h⟩ := (hW t ht).1
    exact ⟨tx.hash, h⟩
  have hload : loadTransactionCSVFiles lib fs [file] [] = loadFiles lib fs [] ∅ [file] := rfl
  have hfilt : ((writtenRows S enum).map txCSVObservation).filter (·.hash = k) =
      ((writtenRows S enum).filter (·.hash = k)).map txCSVObservation := by
    rw [List.filter_map]
    rfl
  rw [hload, loadFiles_lookup [file] (by simp [hfile]) k, hobs, hfilt]
  simp only [List.not_mem_nil, if_false]
  cases hf : (writtenRows S enum).filter (·.hash = k) with
  | nil =>
    refine ⟨⟨fun h => absurd h Bool.false_ne_true, fun hk => ?_⟩, fun env h => nomatch h⟩
    obtain ⟨t, ht, rfl⟩ := List.mem_map.mp hk
    exact absurd (decide_eq_true rfl) (List.filter_eq_nil_iff.mp hf t ht)
  | cons t rest =>
    have ht : t ∈ (writtenRows S enum).filter (·.hash = k) := hf ▸ List.mem_cons_self t rest
    rw [List.mem_filter, decide_eq_true_eq] at ht
    obtain ⟨tx, htx, -⟩ := (hW t ht.1).1
    rw [List.map_cons, List.dropWhile_cons_of_neg (by simp [Observation.decodes,
      txCSVObservation, htx])]
    simp only [txCSVObservation, htx, Option.map_some', Option.isSome_some, true_iff,
      Option.some.injEq]
    refine ⟨List.mem_map.mpr ⟨t, ht.1, ht.2⟩, ?_⟩
    rintro env rfl
    obtain ⟨hmem, hle⟩ := lowest_spec (txCSVObservation t) (rest.map txCSVObservation)
    rw [List.map_cons, List.map_map] at hmem
    exact ⟨t, rest, tx, rfl, htx, rfl, rfl, hmem,
      fun t' ht' => hle _ (List.mem_map_of_mem txCSVObservation ht')⟩

theorem sampleEnum_decodes : ∀ e ∈ sampleEnum,
    ∃ tx, sampleLib.rlpStringToTx e.2.rawTxHex = some tx ∧ e.2.hash = tx.hash.hex := by
  intro e he
  simp only [sampleEnum, List.mem_cons, List.mem_singleton, List.not_mem_nil, or_false] at he
  rcases he with rfl | rfl <;>
    exact ⟨sampleTx, show (if lit "0x01" = lit "0x01" then some sampleTx else none) = _ from
      if_pos rfl, rfl⟩

theorem sampleEnum_hex : ∀ e ∈ sampleEnum, ∃ bs, e.2.rawTxHex = hexEncode bs := by
  intro e he
  simp only [sampleEnum, List.mem_cons, List.mem_singleton, List.not_mem_nil, or_false] at he
  rcases he with rfl | rfl <;> exact ⟨[1], by decide⟩

def transactionsFs : FileSystem := fun f =>
  if f = lit "txs.csv" then (writeOutputs insertionSortSlice true sampleEnum).transactions
  else none

theorem sample_transactions_csv_reloads :
    (∀ e ∈ sampleEnum,
      ∃ tx, sampleLib.rlpStringToTx e.2.rawTxHex = some tx ∧ e.2.hash = tx.hash.hex) ∧
    (∀ e ∈ sampleEnum, ∃ bs, e.2.rawTxHex = hexEncode bs) ∧
    transactionsFs (lit "txs.csv") = (writeOutputs insertionSortSlice true sampleEnum).transactions ∧
    (((loadTransactionCSVFiles sampleLib transactionsFs [lit "txs.csv"] []).lookup
        sampleTx.hash.hex).isSome ↔
      sampleTx.hash.hex ∈ (writeOutputs insertionSortSlice true sampleEnum).parquet.map (·.hash)) ∧
    ∀ env, (loadTransactionCSVFiles sampleLib transactionsFs [lit "txs.csv"] []).lookup
        sampleTx.hash.hex = some env →
      ∃ t rest tx, (writeOutputs insertionSortSlice true sampleEnum).parquet.filter
          (·.hash = sampleTx.hash.hex) = t :: rest ∧
        sampleLib.rlpStringToTx t.rawTxHex = some tx ∧ env.rlp = t.rawTxHex ∧
        env.summary = summarize sampleLib env.summary.timestamp tx ∧
        env.summary.timestamp ∈ (t :: rest).map (·.timestamp) ∧
        ∀ t' ∈ t :: rest, env.summary.timestamp ≤ t'.timestamp :=
  ⟨sampleEnum_decodes, sampleEnum_hex, if_pos rfl,
    transactions_csv_reloads sampleLib insertionSortSlice sampleEnum sampleEnum_decodes
      sampleEnum_hex transactionsFs _ (if_pos rfl) sampleTx.hash.hex⟩

end MempoolArchiver
