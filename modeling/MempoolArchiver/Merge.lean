import MempoolArchiver.Loader
import MempoolArchiver.SortSlice

/-!
# `mergeTransactions`

Before it loads anything the merge checks its arguments: at least one input file, no output
file already there, and every input and sourcelog file a file. The tx-blacklist files are
passed on unchecked. After loading, it sets each transaction's `Sources` from the sourcelog,
sorted by timestamp, fills in the inclusion status, and writes the transactions sorted by
`Timestamp` to the parquet writer, the metadata CSV and, with `write-tx-csv`, the
transactions CSV, skipping those included at least twelve seconds before they were seen.

Map enumeration in Go has no fixed order. The loops over `txs` and over `sourcelog[hash]`
take the order they visit entries in as an argument; the results below hold for every
order.
-/

namespace MempoolArchiver

abbrev EntryMap := AList fun _ : Bytes => TxSummaryEntry

def tieEntry (hash : Bytes) : TxSummaryEntry :=
  { timestamp := Int64.zero, hash, chainID := [], from_ := [], to_ := [], value := [],
    nonce := [], gas := [], gasPrice := [], gasTipCap := [], gasFeeCap := [],
    dataSize := Int64.zero, data4Bytes := [] }

def tieTxs : EntryMap :=
  ⟨[⟨lit "0x01", tieEntry (lit "0x01")⟩, ⟨lit "0x02", tieEntry (lit "0x02")⟩],
    by unfold List.NodupKeys; decide⟩

/-! ## Before loading -/

/-- The checks before loading: `log.Fatal` without input files, `MustNotExist` on the three
output files, `MustBeFile` on every input and sourcelog file. `true` when the merge goes
on. -/
def mergePreflight (fs : FileSystem) (outputFiles inputFiles sourcelogFiles : List Bytes) :
    Bool :=
  !inputFiles.isEmpty && outputFiles.all (fun f => (fs f).isNone) &&
    (inputFiles ++ sourcelogFiles).all fun f => (fs f).isSome

def sampleOutputs : List Bytes :=
  [lit "out/transactions.parquet", lit "out/metadata.csv", lit "out/transactions.csv"]

def blacklistFs : FileSystem := fun f =>
  if f = lit "known.csv" then some (lit "0," ++ sampleKey ++ lit "\n")
  else if f = lit "ragged.csv" then some (lit "0," ++ sampleKey ++ lit "\n1\n")
  else sampleFs f

theorem blacklisted_hash_loaded :
    mergePreflight blacklistFs sampleOutputs [lit "in.csv"] [] = true ∧
      sampleKey ∈ loadTxHashesFromMetadataCSVFiles sampleLib blacklistFs [lit "known.csv"] ∧
      ((loadTransactionCSVFiles sampleLib blacklistFs [lit "in.csv"]
        [lit "missing.csv", lit "known.csv"]).lookup sampleKey).isSome ∧
      ((loadTransactionCSVFiles sampleLib blacklistFs [lit "in.csv"]
        [lit "ragged.csv"]).lookup sampleKey).isSome := by
  decide

/-! ## Sources -/

abbrev SourceTimes := AList fun _ : Bytes => Int64

abbrev Sourcelog := AList fun _ : Bytes => SourceTimes

/-- `sourcelog[hash]` as a list of `(source, timestamp)` pairs: empty for a missing hash. -/
def sourceEntries (sourcelog : Sourcelog) (hash : Bytes) : List (Sigma fun _ : Bytes => Int64) :=
  ((sourcelog.lookup hash).map AList.entries).getD []

def sampleSourcelog : Sourcelog :=
  ⟨[⟨lit "0x01", ⟨[⟨lit "a", Int64.ofNat 2 (by decide)⟩, ⟨lit "b", Int64.ofNat 1 (by decide)⟩],
    by unfold List.NodupKeys; decide⟩⟩], by unfold List.NodupKeys; decide⟩

/-- One transaction's `Sources`: the pairs in the order the inner loop visits them, sorted
by timestamp with `sort.Slice`, then their sources. -/
def txSources (S : SortSlice) (visited : List (Sigma fun _ : Bytes => Int64)) : List Bytes :=
  (S.sort (fun a b => decide (a.2 < b.2)) visited).map (·.1)

/-- A loop that rewrites, for each key in the order `keys`, the entry `txs` holds under it,
as a write through the entry's pointer does. -/
def modifyEntries (f : Bytes → TxSummaryEntry → TxSummaryEntry) (txs : EntryMap)
    (keys : List Bytes) : EntryMap :=
  keys.foldl (fun txs hash =>
    match txs.lookup hash with
    | some tx => txs.insert hash (f hash tx)
    | none => txs) txs

/-- The source-annotation loop, visiting the keys of `txs` in the order `keys`, and each
`sourcelog[hash]` in the order `visit hash`. -/
def annotateSources (S : SortSlice) (visit : Bytes → List (Sigma fun _ : Bytes => Int64))
    (txs : EntryMap) (keys : List Bytes) : EntryMap :=
  modifyEntries (fun hash tx => { tx with sources := txSources S (visit hash) }) txs keys

theorem lookup_modifyEntries (f : Bytes → TxSummaryEntry → TxSummaryEntry) (txs : EntryMap)
    (keys : List Bytes) (hkeys : keys.Nodup) (h : Bytes) :
    (modifyEntries f txs keys).lookup h =
      if h ∈ keys then (txs.lookup h).map (f h) else txs.lookup h := by
  induction keys generalizing txs with
  | nil => simp [modifyEntries]
  | cons k keys ih =>
    rw [List.nodup_cons] at hkeys
    simp only [modifyEntries, List.foldl_cons] at ih ⊢
    rw [ih _ hkeys.2]
    by_cases hk : h = k
    · subst hk
      cases htx : txs.lookup h <;> simp [htx, hkeys.1, AList.lookup_insert]
    · cases htx : txs.lookup k <;> simp [hk, AList.lookup_insert_ne hk]

variable {S : SortSlice}

theorem txSources_spec (visited : List (Sigma fun _ : Bytes => Int64)) :
    ∃ pairs : List (Sigma fun _ : Bytes => Int64), pairs.Perm visited ∧
      pairs.Sorted (fun a b => a.2 ≤ b.2) ∧ txSources S visited = pairs.map (·.1) :=
  ⟨_, S.sort_perm _ _, S.sort_sorted (fun a => a.2.val) visited, rfl⟩

theorem lookup_annotateSources (visit : Bytes → List (Sigma fun _ : Bytes => Int64))
    (txs : EntryMap) (keys : List Bytes) (hkeys : keys.Nodup) (h : Bytes) :
    (annotateSources S visit txs keys).lookup h =
      if h ∈ keys then (txs.lookup h).map fun tx => { tx with sources := txSources S (visit h) }
      else txs.lookup h :=
  lookup_modifyEntries _ txs keys hkeys h

/-- After the source-annotation loop, whatever order either loop visits its map in, every
transaction's `Sources` lists the sources recorded for its hash, each once, in
non-decreasing order of their timestamps; a hash with no sourcelog entry gets none. -/
theorem annotateSources_sources (sourcelog : Sourcelog)
    (visit : Bytes → List (Sigma fun _ : Bytes => Int64))
    (hvisit : ∀ h, (visit h).Perm (sourceEntries sourcelog h))
    (txs : EntryMap) (keys : List Bytes) (hkeys : keys.Perm txs.keys) (h : Bytes) :
    ((annotateSources S visit txs keys).lookup h).isSome = (txs.lookup h).isSome ∧
    ∀ tx, (annotateSources S visit txs keys).lookup h = some tx →
      tx.sources.Nodup ∧
      ∃ pairs : List (Sigma fun _ : Bytes => Int64), pairs.Perm (sourceEntries sourcelog h) ∧
        pairs.Sorted (fun a b => a.2 ≤ b.2) ∧ tx.sources = pairs.map (·.1) := by
  have hnd : keys.Nodup := hkeys.nodup_iff.mpr txs.keys_nodup
  rw [lookup_annotateSources visit txs keys hnd h]
  by_cases hk : h ∈ keys
  · have hmem : h ∈ txs := AList.mem_keys.mpr (hkeys.subset hk)
    obtain ⟨tx₀, htx₀⟩ := Option.isSome_iff_exists.mp (AList.lookup_isSome.mpr hmem)
    simp only [hk, if_true, htx₀, Option.map_some', Option.isSome_some, Option.some.injEq,
      true_and, forall_eq']
    obtain ⟨pairs, hperm, hsorted, hsrc⟩ := txSources_spec (S := S) (visit h)
    have hperm' := hperm.trans (hvisit h)
    refine ⟨?_, pairs, hperm', hsorted, hsrc⟩
    have hkeysnd : ((sourceEntries sourcelog h).map (·.1)).Nodup := by
      unfold sourceEntries
      cases sourcelog.lookup h with
      | none => simp
      | some st => exact st.nodupKeys
    rw [hsrc]
    exact (hperm'.map _).nodup_iff.mpr hkeysnd
  · have hnone : txs.lookup h = none :=
      AList.lookup_eq_none.mpr fun hm => hk (hkeys.symm.subset (AList.mem_keys.mp hm))
    rw [if_neg hk, hnone]
    exact ⟨rfl, fun _ h => nomatch h⟩

theorem sample_sources_by_timestamp :
    (∀ h, (sourceEntries sampleSourcelog h).Perm (sourceEntries sampleSourcelog h)) ∧
    tieTxs.keys.Perm tieTxs.keys ∧
    ((annotateSources insertionSortSlice (sourceEntries sampleSourcelog) tieTxs tieTxs.keys).lookup
      (lit "0x01")).isSome = (tieTxs.lookup (lit "0x01")).isSome ∧
    ∀ tx, (annotateSources insertionSortSlice (sourceEntries sampleSourcelog) tieTxs
        tieTxs.keys).lookup (lit "0x01") = some tx →
      tx.sources.Nodup ∧
      ∃ pairs : List (Sigma fun _ : Bytes => Int64),
        pairs.Perm (sourceEntries sampleSourcelog (lit "0x01")) ∧
        pairs.Sorted (fun a b => a.2 ≤ b.2) ∧ tx.sources = pairs.map (·.1) :=
  ⟨fun _ => .refl _, .refl _, annotateSources_sources (S := insertionSortSlice) sampleSourcelog
    (sourceEntries sampleSourcelog) (fun _ => .refl _) tieTxs tieTxs.keys (.refl _) (lit "0x01")⟩

/-! ## Distinct timestamps fix the order -/

theorem txSources_of_distinct {S' : SortSlice}
    {entries visited visited' : List (Sigma fun _ : Bytes => Int64)}
    (hd : (entries.map (·.2)).Nodup) (hv : visited.Perm entries) (hv' : visited'.Perm entries) :
    txSources S visited = txSources S' visited' := by
  obtain ⟨p, hp, hs, he⟩ := txSources_spec (S := S) visited
  obtain ⟨p', hp', hs', he'⟩ := txSources_spec (S := S') visited'
  have hstrict : ∀ {q : List (Sigma fun _ : Bytes => Int64)}, q.Perm entries →
      q.Sorted (fun a b => a.2 ≤ b.2) → q.Sorted fun a b => a.2 < b.2 := fun hq hsq =>
    hsq.imp₂ (fun a b (hle : a.2 ≤ b.2) (hne : a.2 ≠ b.2) =>
        Int64.lt_def.mpr (lt_of_le_of_ne hle fun h => hne (Int64.ext_val h)))
      (List.pairwise_map.mp ((hq.map _).nodup_iff.mpr hd))
  haveI : IsAntisymm (Sigma fun _ : Bytes => Int64) fun a b => a.2 < b.2 :=
    ⟨fun _ _ h₁ h₂ => absurd (Int64.lt_def.mp h₁) (not_lt.mpr (le_of_lt h₂))⟩
  rw [he, he', List.eq_of_perm_of_sorted ((hp.trans hv).trans (hp'.trans hv').symm)
    (hstrict (hp.trans hv) hs) (hstrict (hp'.trans hv') hs')]

/-- When the timestamps recorded for each hash differ, the source-annotation loop gives every
transaction the same `Sources` whatever order either of its loops visits its map in and
whichever `sort.Slice` orders the pairs: the map enumeration and the unstable sort are then
invisible in the output. -/
theorem annotateSources_order_free (sourcelog : Sourcelog)
    (hdistinct : ∀ h, ((sourceEntries sourcelog h).map (·.2)).Nodup) (S' : SortSlice)
    (visit visit' : Bytes → List (Sigma fun _ : Bytes => Int64))
    (hvisit : ∀ h, (visit h).Perm (sourceEntries sourcelog h))
    (hvisit' : ∀ h, (visit' h).Perm (sourceEntries sourcelog h)) (txs : EntryMap)
    (keys keys' : List Bytes) (hkeys : keys.Perm txs.keys) (hkeys' : keys'.Perm txs.keys)
    (h : Bytes) :
    (annotateSources S visit txs keys).lookup h =
      (annotateSources S' visit' txs keys').lookup h := by
  have hmem : h ∈ keys ↔ h ∈ keys' := hkeys.mem_iff.trans hkeys'.mem_iff.symm
  rw [lookup_annotateSources visit txs keys (hkeys.nodup_iff.mpr txs.keys_nodup) h,
    lookup_annotateSources visit' txs keys' (hkeys'.nodup_iff.mpr txs.keys_nodup) h,
    @txSources_of_distinct S S' _ _ _ (hdistinct h) (hvisit h) (hvisit' h)]
  simp only [hmem]

theorem sampleSourcelog_distinct : ∀ h, ((sourceEntries sampleSourcelog h).map (·.2)).Nodup := by
  intro h
  unfold sourceEntries
  cases hl : sampleSourcelog.lookup h with
  | none => exact List.nodup_nil
  | some st =>
    obtain ⟨rfl, rfl⟩ : h = lit "0x01" ∧ st = _ := by
      simpa [sampleSourcelog] using AList.mem_lookup_iff.mp hl
    decide

theorem sample_sources_any_order :
    (∀ h, ((sourceEntries sampleSourcelog h).map (·.2)).Nodup) ∧
    (∀ h, (sourceEntries sampleSourcelog h).Perm (sourceEntries sampleSourcelog h)) ∧
    (∀ h, (sourceEntries sampleSourcelog h).reverse.Perm (sourceEntries sampleSourcelog h)) ∧
    tieTxs.keys.Perm tieTxs.keys ∧ tieTxs.keys.reverse.Perm tieTxs.keys ∧
    (annotateSources insertionSortSlice (sourceEntries sampleSourcelog) tieTxs tieTxs.keys).lookup
        (lit "0x01") =
      (annotateSources insertionSortSlice (fun h => (sourceEntries sampleSourcelog h).reverse)
        tieTxs tieTxs.keys.reverse).lookup (lit "0x01") :=
  ⟨sampleSourcelog_distinct, fun _ => .refl _, fun _ => List.reverse_perm _, .refl _,
    List.reverse_perm _, annotateSources_order_free sampleSourcelog sampleSourcelog_distinct
      insertionSortSlice _ _ (fun _ => .refl _) (fun _ => List.reverse_perm _) tieTxs _ _
      (.refl _) (List.reverse_perm _) (lit "0x01")⟩

/-! ## Writing -/

/-- What the merge has written: the rows passed to `pw.Write`, the metadata CSV, and the
transactions CSV when `write-tx-csv` is set. Every write is taken to succeed. -/
structure MergeOutput where
  parquet : List TxSummaryEntry
  metadata : Bytes
  transactions : Option Bytes
deriving DecidableEq

def txCSVHeader : Bytes := lit "timestamp_ms,hash,raw_tx\n"

/-- The output files once their headers are written. -/
def initialOutput (writeTxCSV : Bool) : MergeOutput where
  parquet := []
  metadata := joinComma txSummaryEntryCSVHeader ++ [10]
  transactions := if writeTxCSV then some txCSVHeader else none

/-- `fmt.Fprintf(fCSVTxs, "%d,%s,%s\n", tx.Timestamp, tx.Hash, tx.RawTxHex())`. -/
def txCSVLine (tx : TxSummaryEntry) : Bytes :=
  joinComma [fmtInt tx.timestamp.val, tx.hash, tx.rawTxHex] ++ [10]

/-- `tx.InclusionDelayMs <= -12_000`: the write loop skips the transaction. -/
def includedBeforeReceived (tx : TxSummaryEntry) : Bool := tx.inclusionDelayMs.val ≤ -12000

/-- One pass of the write loop. -/
def writeTx (out : MergeOutput) (tx : TxSummaryEntry) : MergeOutput :=
  if includedBeforeReceived tx then out
  else
    { parquet := out.parquet ++ [tx]
      metadata := out.metadata ++ (joinComma tx.toCSVRow ++ [10])
      transactions := out.transactions.map (· ++ txCSVLine tx) }

/-- `txsSlice` after `sort.Slice` by `Timestamp`. -/
def sortByTimestamp (S : SortSlice) (txsSlice : List TxSummaryEntry) : List TxSummaryEntry :=
  S.sort (fun a b => decide (a.timestamp < b.timestamp)) txsSlice

/-- The merge from `txsSlice` on: ranging over `txs` in the order `enum`, sorting the slice,
writing the headers, then the write loop. -/
def writeOutputs (S : SortSlice) (writeTxCSV : Bool)
    (enum : List (Sigma fun _ : Bytes => TxSummaryEntry)) : MergeOutput :=
  (sortByTimestamp S (enum.map (·.2))).foldl writeTx (initialOutput writeTxCSV)

/-- The rows the write loop writes. -/
def writtenRows (S : SortSlice) (enum : List (Sigma fun _ : Bytes => TxSummaryEntry)) :
    List TxSummaryEntry :=
  (sortByTimestamp S (enum.map (·.2))).filter fun tx => !includedBeforeReceived tx

theorem foldl_writeTx (txs : List TxSummaryEntry) (out : MergeOutput) :
    txs.foldl writeTx out =
      { parquet := out.parquet ++ txs.filter (fun tx => !includedBeforeReceived tx)
        metadata := out.metadata ++
          Csv.writeRecords ((txs.filter fun tx => !includedBeforeReceived tx).map (·.toCSVRow))
        transactions := out.transactions.map
          (· ++ (txs.filter fun tx => !includedBeforeReceived tx).flatMap txCSVLine) } := by
  induction txs generalizing out with
  | nil => simp [Csv.writeRecords]
  | cons tx txs ih =>
    rw [List.foldl_cons, ih]
    by_cases h : includedBeforeReceived tx
    · simp [writeTx, h]
    · simp [writeTx, h, Csv.writeRecords, Option.map_map, Function.comp_def]

theorem writeOutputs_eq (S : SortSlice) (writeTxCSV : Bool)
    (enum : List (Sigma fun _ : Bytes => TxSummaryEntry)) :
    writeOutputs S writeTxCSV enum =
      { parquet := writtenRows S enum
        metadata :=
          Csv.writeRecords (txSummaryEntryCSVHeader :: (writtenRows S enum).map (·.toCSVRow))
        transactions :=
          if writeTxCSV then some (txCSVHeader ++ (writtenRows S enum).flatMap txCSVLine)
          else none } := by
  rw [writeOutputs, foldl_writeTx]
  cases writeTxCSV <;> simp [initialOutput, writtenRows, Csv.writeRecords]

theorem writtenRows_perm {txs : EntryMap} {enum : List (Sigma fun _ : Bytes => TxSummaryEntry)}
    (henum : enum.Perm txs.entries) :
    (writtenRows S enum).Perm
      ((txs.entries.map (·.2)).filter fun tx => !includedBeforeReceived tx) :=
  ((S.sort_perm _ _).trans (henum.map _)).filter _

theorem writtenRows_sorted (enum : List (Sigma fun _ : Bytes => TxSummaryEntry)) :
    (writtenRows S enum).Sorted fun a b => a.timestamp ≤ b.timestamp :=
  (S.sort_sorted (fun tx : TxSummaryEntry => tx.timestamp.val) _).filter _

/-- Whatever order the map is enumerated in and whatever permutation `sort.Slice` picks, the
rows written to the parquet file are the transactions not skipped, each once, in
non-decreasing `Timestamp` order; the metadata CSV is its header followed by the same rows,
and the transactions CSV, when written, its header followed by the same rows. -/
theorem writeOutputs_rows (S : SortSlice) (writeTxCSV : Bool) (txs : EntryMap)
    (enum : List (Sigma fun _ : Bytes => TxSummaryEntry)) (henum : enum.Perm txs.entries) :
    ∃ rows : List TxSummaryEntry,
      rows.Perm ((txs.entries.map (·.2)).filter fun tx => !includedBeforeReceived tx) ∧
      rows.Sorted (fun a b => a.timestamp ≤ b.timestamp) ∧
      (writeOutputs S writeTxCSV enum).parquet = rows ∧
      (writeOutputs S writeTxCSV enum).metadata =
        Csv.writeRecords (txSummaryEntryCSVHeader :: rows.map (·.toCSVRow)) ∧
      (writeOutputs S writeTxCSV enum).transactions =
        if writeTxCSV then some (txCSVHeader ++ rows.flatMap txCSVLine) else none := by
  rw [writeOutputs_eq]
  exact ⟨_, writtenRows_perm henum, writtenRows_sorted enum, rfl, rfl, rfl⟩

def mixedTxs : EntryMap :=
  ⟨[⟨lit "0x01", { tieEntry (lit "0x01") with timestamp := Int64.ofNat 5 (by decide) }⟩,
    ⟨lit "0x02", { tieEntry (lit "0x02") with timestamp := Int64.ofNat 3 (by decide) }⟩,
    ⟨lit "0x03", { tieEntry (lit "0x03") with
      inclusionDelayMs := ⟨-12000, by decide, by decide⟩ }⟩],
    by unfold List.NodupKeys; decide⟩

theorem mixed_rows_written :
    mixedTxs.entries.reverse.Perm mixedTxs.entries ∧
    ∃ rows : List TxSummaryEntry,
      rows.Perm ((mixedTxs.entries.map (·.2)).filter fun tx => !includedBeforeReceived tx) ∧
      rows.Sorted (fun a b => a.timestamp ≤ b.timestamp) ∧
      (writeOutputs insertionSortSlice true mixedTxs.entries.reverse).parquet = rows ∧
      (writeOutputs insertionSortSlice true mixedTxs.entries.reverse).metadata =
        Csv.writeRecords (txSummaryEntryCSVHeader :: rows.map (·.toCSVRow)) ∧
      (writeOutputs insertionSortSlice true mixedTxs.entries.reverse).transactions =
        some (txCSVHeader ++ rows.flatMap txCSVLine) :=
  ⟨List.reverse_perm _,
    writeOutputs_rows insertionSortSlice true mixedTxs _ (List.reverse_perm _)⟩

/-! ## Equal timestamps -/

theorem sortByTimestamp_tie (S : SortSlice) {a b : TxSummaryEntry}
    (hts : a.timestamp = b.timestamp) :
    sortByTimestamp S [a, b] = [a, b] ∧ sortByTimestamp S [b, a] = [b, a] ∨
      sortByTimestamp S [a, b] = [b, a] ∧ sortByTimestamp S [b, a] = [a, b] := by
  have hless : ∀ xs : List TxSummaryEntry, (∀ x ∈ xs, x.timestamp = a.timestamp) →
      sortByTimestamp S xs = (S.order xs.length fun _ _ => false).map xs.get :=
    fun xs hxs => S.sort_of_unordered _ xs fun x hx y hy => by simp [hxs x hx, hxs y hy]
  rw [hless [a, b] (by simp [hts]), hless [b, a] (by simp [hts])]
  simp only [List.length_cons, List.length_nil]
  rcases perm_finRange_two (S.order_perm 2 fun _ _ => false) with h | h <;> simp [h]

theorem writtenRows_tie (S : SortSlice) {ka kb : Bytes} {a b : TxSummaryEntry}
    (hts : a.timestamp = b.timestamp) (hab : a ≠ b)
    (ha : includedBeforeReceived a = false) (hb : includedBeforeReceived b = false) :
    writtenRows S [⟨ka, a⟩, ⟨kb, b⟩] ≠ writtenRows S [⟨kb, b⟩, ⟨ka, a⟩] := by
  rcases sortByTimestamp_tie S hts with ⟨h₁, h₂⟩ | ⟨h₁, h₂⟩ <;>
    simp [writtenRows, h₁, h₂, ha, hb, hab, hab.symm]

theorem enumeration_decides_tied_rows :
    ¬ ∀ (S : SortSlice) (txs : EntryMap) (enum₁ enum₂ : List (Sigma fun _ : Bytes => TxSummaryEntry)),
      enum₁.Perm txs.entries → enum₂.Perm txs.entries →
        (writeOutputs S false enum₁).parquet = (writeOutputs S false enum₂).parquet := by
  intro h
  have hrun := h insertionSortSlice tieTxs tieTxs.entries tieTxs.entries.reverse (.refl _)
    (List.reverse_perm _)
  rw [writeOutputs_eq, writeOutputs_eq] at hrun
  exact writtenRows_tie insertionSortSlice (a := tieEntry (lit "0x01")) (b := tieEntry (lit "0x02"))
    rfl (by decide) (by decide) (by decide) hrun

/-- Two runs that enumerate the map in different orders write the same rows, each run's in
non-decreasing `Timestamp` order, so the timestamps of the rows agree position by position;
rows with equal timestamps may come in either order, and each metadata CSV follows its own
run's parquet rows. -/
theorem writeOutputs_enumeration (S : SortSlice) (writeTxCSV : Bool) (txs : EntryMap)
    (enum₁ enum₂ : List (Sigma fun _ : Bytes => TxSummaryEntry))
    (h₁ : enum₁.Perm txs.entries) (h₂ : enum₂.Perm txs.entries) :
    (writeOutputs S writeTxCSV enum₁).parquet.Perm (writeOutputs S writeTxCSV enum₂).parquet ∧
    (writeOutputs S writeTxCSV enum₁).parquet.map (·.timestamp) =
      (writeOutputs S writeTxCSV enum₂).parquet.map (·.timestamp) ∧
    ∀ enum ∈ [enum₁, enum₂], (writeOutputs S writeTxCSV enum).metadata =
      Csv.writeRecords (txSummaryEntryCSVHeader ::
        (writeOutputs S writeTxCSV enum).parquet.map (·.toCSVRow)) := by
  simp only [writeOutputs_eq]
  have hperm := (writtenRows_perm (S := S) h₁).trans (writtenRows_perm (S := S) h₂).symm
  refine ⟨hperm, ?_, by simp⟩
  have hsorted : ∀ enum, ((writtenRows S enum).map fun tx => tx.timestamp.val).Sorted (· ≤ ·) :=
    fun enum => List.pairwise_map.mpr (writtenRows_sorted enum)
  have hvals := List.eq_of_perm_of_sorted (hperm.map fun tx => tx.timestamp.val)
    (hsorted enum₁) (hsorted enum₂)
  apply List.map_injective_iff.mpr fun _ _ => Int64.ext_val
  simpa [List.map_map, Function.comp_def] using hvals

theorem tie_runs_agree_on_timestamps :
    tieTxs.entries.Perm tieTxs.entries ∧ tieTxs.entries.reverse.Perm tieTxs.entries ∧
    (writeOutputs insertionSortSlice false tieTxs.entries).parquet.Perm
      (writeOutputs insertionSortSlice false tieTxs.entries.reverse).parquet ∧
    (writeOutputs insertionSortSlice false tieTxs.entries).parquet.map (·.timestamp) =
      (writeOutputs insertionSortSlice false tieTxs.entries.reverse).parquet.map (·.timestamp) ∧
    ∀ enum ∈ [tieTxs.entries, tieTxs.entries.reverse],
      (writeOutputs insertionSortSlice false enum).metadata =
        Csv.writeRecords (txSummaryEntryCSVHeader ::
          (writeOutputs insertionSortSlice false enum).parquet.map (·.toCSVRow)) :=
  ⟨.refl _, List.reverse_perm _, writeOutputs_enumeration insertionSortSlice false tieTxs
    tieTxs.entries tieTxs.entries.reverse (.refl _) (List.reverse_perm _)⟩

end MempoolArchiver
