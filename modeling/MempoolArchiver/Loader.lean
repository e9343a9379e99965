import MempoolArchiver.Types
import Mathlib.Data.List.AList

/-!
# Loading the collector's CSV files

`LoadTransactionCSVFiles` first loads the hashes of the tx-blacklist files
(`LoadTxHashesFromMetadataCSVFiles`), then scans every line of every input file. A line
shorter than 66 bytes, one that does not split into three fields, or one whose timestamp
`strconv.Atoi` rejects is skipped; its lowercased hash column is the map key. A key on the
blacklist is skipped; a key already in the map only lowers the stored timestamp; a new key
is decoded by `parseTx` and stored with the raw field, or skipped when decoding fails. An
`os.Open` failure returns the map loaded so far, in both loaders, and `ReadAll` failing on
one blacklist file returns the hashes loaded so far.

The scan is split the same way: `observe` is the line filter, `store` the map update, and
`storeEntry` what an observation does to the entry of its own key. A Go map is an `AList`.
-/

namespace MempoolArchiver

/-- The files `os.Open` can open, with their contents. -/
abbrev FileSystem := Bytes → Option Bytes

abbrev TxMap := AList fun _ : Bytes => TxEnvelope

/-! ## The blacklist -/

/-- Column 1 of every record with at least two fields, lowercased. -/
def hashesOfRecords (lib : Lib) (records : List (List Bytes)) : List Bytes :=
  records.filterMap fun
    | _ :: hash :: _ => some (toLower lib.unicodeLower hash)
    | _ => none

/-- The file loop of `LoadTxHashesFromMetadataCSVFiles`, from the hashes `txs` loaded so far. -/
def loadTxHashes (lib : Lib) (fs : FileSystem) (txs : List Bytes) : List Bytes → List Bytes
  | [] => txs
  | filename :: files =>
    match fs filename with
    | none => txs
    | some contents =>
      match Csv.readAll contents with
      | .error _ => txs
      | .ok records => loadTxHashes lib fs (txs ++ hashesOfRecords lib records) files

def loadTxHashesFromMetadataCSVFiles (lib : Lib) (fs : FileSystem) (files : List Bytes) :
    List Bytes :=
  loadTxHashes lib fs [] files

theorem loadTxHashes_of_read {lib : Lib} {fs : FileSystem} (files : List Bytes)
    (records : Bytes → List (List Bytes))
    (hread : ∀ f ∈ files, ∃ contents, fs f = some contents ∧ Csv.readAll contents = .ok (records f))
    (txs : List Bytes) :
    loadTxHashes lib fs txs files = txs ++ files.flatMap fun f => hashesOfRecords lib (records f) := by
  induction files generalizing txs with
  | nil => simp [loadTxHashes]
  | cons f files ih =>
    simp only [List.mem_cons, forall_eq_or_imp] at hread
    obtain ⟨⟨contents, hc, hr⟩, hrest⟩ := hread
    simp [loadTxHashes, hc, hr, ih hrest]

/-! ## The transaction scan -/

structure Observation where
  timestamp : Int64
  hash : Bytes
  raw : Bytes
deriving DecidableEq

/-- The checks a `ReadString` segment passes before the blacklist: length, three fields
after trimming the newline, and a timestamp `strconv.Atoi` accepts. -/
def observe (lib : Lib) (l : Bytes) : Option Observation :=
  if l.length < 66 then none
  else match splitComma (trimNewlines l) with
    | [ts, hash, raw] => (atoi ts).map fun t => ⟨t, toLower lib.unicodeLower hash, raw⟩
    | _ => none

def store (lib : Lib) (prevKnownTxs : List Bytes) (txs : TxMap) (o : Observation) : TxMap :=
  if o.hash ∈ prevKnownTxs then txs
  else match txs.lookup o.hash with
    | some env =>
      if o.timestamp < env.summary.timestamp then
        txs.insert o.hash { env with summary := { env.summary with timestamp := o.timestamp } }
      else txs
    | none =>
      match parseTx lib o.timestamp o.hash o.raw with
      | some (txSummary, _) => txs.insert o.hash ⟨o.raw, txSummary⟩
      | none => txs

def scanLine (lib : Lib) (prevKnownTxs : List Bytes) (txs : TxMap) (l : Bytes) : TxMap :=
  match observe lib l with
  | some o => store lib prevKnownTxs txs o
  | none => txs

/-- The file loop of `LoadTransactionCSVFiles`, from the map `txs` loaded so far. -/
def loadFiles (lib : Lib) (fs : FileSystem) (prevKnownTxs : List Bytes) (txs : TxMap) :
    List Bytes → TxMap
  | [] => txs
  | filename :: files =>
    match fs filename with
    | none => txs
    | some contents =>
      loadFiles lib fs prevKnownTxs ((readLines contents).foldl (scanLine lib prevKnownTxs) txs) files

def loadTransactionCSVFiles (lib : Lib) (fs : FileSystem) (files knownTxsFiles : List Bytes) :
    TxMap :=
  loadFiles lib fs (loadTxHashesFromMetadataCSVFiles lib fs knownTxsFiles) ∅ files

/-! ## One key at a time -/

def storeEntry (lib : Lib) (prevKnownTxs : List Bytes) (e : Option TxEnvelope) (o : Observation) :
    Option TxEnvelope :=
  if o.hash ∈ prevKnownTxs then e
  else match e with
    | some env =>
      some (if o.timestamp < env.summary.timestamp then
        { env with summary := { env.summary with timestamp := o.timestamp } } else env)
    | none => (parseTx lib o.timestamp o.hash o.raw).map fun p => ⟨o.raw, p.1⟩

variable {lib : Lib} {prevKnownTxs : List Bytes}

theorem lookup_store_of_ne (txs : TxMap) (o : Observation) {k : Bytes} (hk : o.hash ≠ k) :
    (store lib prevKnownTxs txs o).lookup k = txs.lookup k := by
  unfold store
  split_ifs
  · rfl
  · split
    · split_ifs
      · exact AList.lookup_insert_ne (Ne.symm hk)
      · rfl
    · split
      · exact AList.lookup_insert_ne (Ne.symm hk)
      · rfl

theorem lookup_store_self (txs : TxMap) (o : Observation) :
    (store lib prevKnownTxs txs o).lookup o.hash =
      storeEntry lib prevKnownTxs (txs.lookup o.hash) o := by
  unfold store storeEntry
  split_ifs
  · rfl
  · split
    · rename_i env h
      split_ifs <;> simp [AList.lookup_insert, h]
    · rename_i h
      split
      · rename_i p _ hp
        simp [AList.lookup_insert, hp]
      · rename_i hp
        simp [h, hp]

theorem lookup_foldl_store (os : List Observation) (txs : TxMap) (k : Bytes) :
    (os.foldl (store lib prevKnownTxs) txs).lookup k =
      (os.filter (·.hash = k)).foldl (storeEntry lib prevKnownTxs) (txs.lookup k) := by
  induction os generalizing txs with
  | nil => rfl
  | cons o os ih =>
    by_cases hk : o.hash = k
    · subst hk
      simp [ih, lookup_store_self]
    · simp [ih, lookup_store_of_ne _ _ hk, hk]

def lowest (t : Int64) (os : List Observation) : Int64 :=
  os.foldl (fun m o => if o.timestamp < m then o.timestamp else m) t

theorem lowest_mem (t : Int64) (os : List Observation) :
    lowest t os = t ∨ ∃ o ∈ os, lowest t os = o.timestamp := by
  induction os generalizing t with
  | nil => exact .inl rfl
  | cons o os ih =>
    simp only [lowest, List.foldl_cons] at ih ⊢
    split_ifs
    · rcases ih o.timestamp with h | ⟨o', ho', h⟩
      · exact .inr ⟨o, by simp, h⟩
      · exact .inr ⟨o', by simp [ho'], h⟩
    · rcases ih t with h | ⟨o', ho', h⟩
      · exact .inl h
      · exact .inr ⟨o', by simp [ho'], h⟩

theorem lowest_le (t : Int64) (os : List Observation) :
    lowest t os ≤ t ∧ ∀ o ∈ os, lowest t os ≤ o.timestamp := by
  induction os generalizing t with
  | nil => simp [lowest]
  | cons o os ih =>
    simp only [lowest, List.foldl_cons, List.mem_cons, forall_eq_or_imp] at ih ⊢
    split_ifs with h
    · obtain ⟨h1, h2⟩ := ih o.timestamp
      simp only [Int64.le_def, Int64.lt_def] at h h1 ⊢
      exact ⟨by omega, h1, h2⟩
    · obtain ⟨h1, h2⟩ := ih t
      simp only [Int64.le_def, Int64.lt_def, not_lt] at h h1 ⊢
      exact ⟨h1, by omega, h2⟩

theorem lowest_spec (o : Observation) (rest : List Observation) :
    lowest o.timestamp rest ∈ (o :: rest).map (·.timestamp) ∧
      ∀ o' ∈ o :: rest, lowest o.timestamp rest ≤ o'.timestamp := by
  obtain ⟨h1, h2⟩ := lowest_le o.timestamp rest
  refine ⟨?_, by simpa using ⟨h1, h2⟩⟩
  rcases lowest_mem o.timestamp rest with h | ⟨o', ho', h⟩
  · simp [h]
  · exact List.mem_map.mpr ⟨o', List.mem_cons_of_mem _ ho', h.symm⟩

def Observation.decodes (lib : Lib) (o : Observation) : Bool := (lib.rlpStringToTx o.raw).isSome

theorem foldl_storeEntry_some (os : List Observation) (hB : ∀ o ∈ os, o.hash ∉ prevKnownTxs)
    (env : TxEnvelope) :
    os.foldl (storeEntry lib prevKnownTxs) (some env) =
      some { env with summary := { env.summary with timestamp := lowest env.summary.timestamp os } } := by
  induction os generalizing env with
  | nil => rfl
  | cons o os ih =>
    simp only [List.mem_cons, forall_eq_or_imp] at hB
    simp only [List.foldl_cons, storeEntry, if_neg hB.1]
    split_ifs with h
    · rw [ih hB.2]; simp only [lowest, List.foldl_cons, if_pos h]
    · rw [ih hB.2]; simp only [lowest, List.foldl_cons, if_neg h]

theorem summarize_with_timestamp (t t' : Int64) (tx : Transaction) :
    { summarize lib t tx with timestamp := t' } = summarize lib t' tx := rfl

theorem foldl_storeEntry_none (os : List Observation) (hB : ∀ o ∈ os, o.hash ∉ prevKnownTxs) :
    os.foldl (storeEntry lib prevKnownTxs) none =
      match os.dropWhile (fun o => !o.decodes lib) with
      | [] => none
      | o :: rest => (lib.rlpStringToTx o.raw).map fun tx =>
          ⟨o.raw, summarize lib (lowest o.timestamp rest) tx⟩ := by
  induction os with
  | nil => rfl
  | cons o os ih =>
    simp only [List.mem_cons, forall_eq_or_imp] at hB
    cases hd : lib.rlpStringToTx o.raw with
    | none =>
      have : (!o.decodes lib) = true := by simp [Observation.decodes, hd]
      rw [List.dropWhile_cons_of_pos (p := fun o : Observation => !o.decodes lib) this, ← ih hB.2, List.foldl_cons]
      simp [storeEntry, hB.1, parseTx_eq_none.mpr hd]
    | some tx =>
      have : ¬(!o.decodes lib) = true := by simp [Observation.decodes, hd]
      rw [List.dropWhile_cons_of_neg (p := fun o : Observation => !o.decodes lib) this, List.foldl_cons]
      simp only [storeEntry, if_neg hB.1, parseTx, hd, Option.bind_eq_bind, Option.some_bind,
        Option.pure_def, Option.map_some']
      rw [foldl_storeEntry_some os hB.2, summarize_with_timestamp]
      rfl

theorem foldl_storeEntry_known (os : List Observation) (hB : ∀ o ∈ os, o.hash ∈ prevKnownTxs)
    (e : Option TxEnvelope) : os.foldl (storeEntry lib prevKnownTxs) e = e := by
  induction os with
  | nil => rfl
  | cons o os ih =>
    simp only [List.mem_cons, forall_eq_or_imp] at hB
    simp only [List.foldl_cons, storeEntry, if_pos hB.1, ih hB.2]

/-! ## Whole files -/

def observations (lib : Lib) (contents : Bytes) : List Observation :=
  (readLines contents).filterMap (observe lib)

def fileObservations (lib : Lib) (fs : FileSystem) (files : List Bytes) : List Observation :=
  files.flatMap fun f => observations lib ((fs f).getD [])

theorem foldl_scanLine (ls : List Bytes) (txs : TxMap) :
    ls.foldl (scanLine lib prevKnownTxs) txs =
      (ls.filterMap (observe lib)).foldl (store lib prevKnownTxs) txs := by
  induction ls generalizing txs with
  | nil => rfl
  | cons l ls ih =>
    cases h : observe lib l <;> simp [scanLine, h, ih, List.filterMap_cons]

theorem loadFiles_eq_foldl {fs : FileSystem} (files : List Bytes)
    (hread : ∀ f ∈ files, (fs f).isSome) (txs : TxMap) :
    loadFiles lib fs prevKnownTxs txs files =
      (fileObservations lib fs files).foldl (store lib prevKnownTxs) txs := by
  induction files generalizing txs with
  | nil => rfl
  | cons f files ih =>
    simp only [List.mem_cons, forall_eq_or_imp] at hread
    obtain ⟨c, hc⟩ := Option.isSome_iff_exists.mp hread.1
    simp [loadFiles, hc, ih hread.2, fileObservations, observations, foldl_scanLine]

theorem loadFiles_lookup {fs : FileSystem} (files : List Bytes) (hread : ∀ f ∈ files, (fs f).isSome)
    (k : Bytes) :
    (loadFiles lib fs prevKnownTxs ∅ files).lookup k =
      if k ∈ prevKnownTxs then none
      else match ((fileObservations lib fs files).filter (·.hash = k)).dropWhile
          (fun o => !o.decodes lib) with
        | [] => none
        | o :: rest => (lib.rlpStringToTx o.raw).map fun tx =>
            ⟨o.raw, summarize lib (lowest o.timestamp rest) tx⟩ := by
  rw [loadFiles_eq_foldl files hread, lookup_foldl_store, AList.lookup_empty]
  have hk : ∀ o ∈ (fileObservations lib fs files).filter (·.hash = k), o.hash = k := by
    intro o ho
    simpa using (List.mem_filter.mp ho).2
  split_ifs with hB
  · exact foldl_storeEntry_known _ (fun o ho => hk o ho ▸ hB) none
  · exact foldl_storeEntry_none _ (fun o ho => hk o ho ▸ hB)

theorem loadFiles_takeWhile {fs : FileSystem} (files : List Bytes) (txs : TxMap) :
    loadFiles lib fs prevKnownTxs txs files =
      loadFiles lib fs prevKnownTxs txs (files.takeWhile fun f => (fs f).isSome) := by
  induction files generalizing txs with
  | nil => rfl
  | cons f files ih =>
    cases hf : fs f with
    | none => simp [loadFiles, hf]
    | some contents => simp [loadFiles, hf, ih]

theorem lookup_loadTransactionCSVFiles_some {fs : FileSystem} {files knownTxsFiles : List Bytes}
    {k : Bytes} {env : TxEnvelope}
    (h : (loadTransactionCSVFiles lib fs files knownTxsFiles).lookup k = some env) :
    ∃ o ∈ fileObservations lib fs files, o.hash = k ∧
      ∃ tx, lib.rlpStringToTx o.raw = some tx ∧ env.rlp = o.raw ∧ env.summary.hash = tx.hash.hex := by
  have hread : ∀ f ∈ files.takeWhile fun f => (fs f).isSome, (fs f).isSome :=
    fun f hf => List.mem_takeWhile_imp (p := fun f => (fs f).isSome) hf
  have hsub : fileObservations lib fs (files.takeWhile fun f => (fs f).isSome) ⊆
      fileObservations lib fs files := fun o ho => by
    obtain ⟨f, hf, ho⟩ := List.mem_flatMap.mp ho
    exact List.mem_flatMap.mpr ⟨f, (List.takeWhile_sublist _).subset hf, ho⟩
  rw [loadTransactionCSVFiles, loadFiles_takeWhile, loadFiles_lookup _ hread k] at h
  split_ifs at h
  split at h
  · nomatch h
  · rename_i o rest hd
    obtain ⟨tx, htx, rfl⟩ := Option.map_eq_some'.mp h
    have ho := List.mem_filter.mp ((List.dropWhile_sublist _).subset (hd ▸ List.mem_cons_self o rest))
    exact ⟨o, hsub ho.1, of_decide_eq_true ho.2, tx, htx, rfl, rfl⟩

/-- `LoadTransactionCSVFiles` on files that all open, for every blacklist it loads: the keys
are the unlisted keys with a decodable observation, and the entry of such a key carries the
raw field and the `parseTx` summary of its first decodable observation, with the least
timestamp among that observation and every later observation of the key. -/
theorem loadTransactionCSVFiles_lookup {fs : FileSystem} (files knownTxsFiles : List Bytes)
    (hread : ∀ f ∈ files, (fs f).isSome) (k : Bytes) :
    let B := loadTxHashesFromMetadataCSVFiles lib fs knownTxsFiles
    let os := (fileObservations lib fs files).filter (·.hash = k)
    let m := loadTransactionCSVFiles lib fs files knownTxsFiles
    ((m.lookup k).isSome ↔ k ∉ B ∧ ∃ o ∈ os, o.decodes lib) ∧
    ∀ env, m.lookup k = some env →
      ∃ pre o rest tx, os = pre ++ o :: rest ∧ (∀ p ∈ pre, p.decodes lib = false) ∧
        lib.rlpStringToTx o.raw = some tx ∧ env.rlp = o.raw ∧
        env.summary = summarize lib env.summary.timestamp tx ∧
        env.summary.timestamp ∈ (o :: rest).map (·.timestamp) ∧
        ∀ o' ∈ o :: rest, env.summary.timestamp ≤ o'.timestamp := by
  intro B os m
  have hm : m.lookup k = _ := loadFiles_lookup files hread k
  have hsplit := List.takeWhile_append_dropWhile (fun o : Observation => !o.decodes lib) os
  have hpre : ∀ p ∈ os.takeWhile (fun o => !o.decodes lib), p.decodes lib = false :=
    fun p hp => by simpa using List.mem_takeWhile_imp hp
  by_cases hB : k ∈ B
  · rw [hm, if_pos hB]
    exact ⟨⟨fun h => absurd h Bool.false_ne_true, fun h => absurd hB h.1⟩, fun env h => nomatch h⟩
  rcases hd : os.dropWhile (fun o => !o.decodes lib) with _ | ⟨o, rest⟩
  · have hnone : ∀ o ∈ os, o.decodes lib = false := fun o ho => by
      simpa using List.dropWhile_eq_nil_iff.mp hd o ho
    simp only [hm, hB, hd, if_false, Option.isSome_none, Bool.false_eq_true, false_iff,
      reduceCtorEq, false_implies, implies_true, and_true]
    exact fun ⟨_, o, ho, hdec⟩ => by simp [hnone o ho] at hdec
  · have ho : o.decodes lib = true := by
      simpa [hd] using List.head_dropWhile_not (fun o : Observation => !o.decodes lib) os (by simp [hd])
    obtain ⟨tx, htx⟩ := Option.isSome_iff_exists.mp ho
    simp only [hm, hB, hd, if_false, htx, Option.map_some', Option.isSome_some, true_iff,
      Option.some.injEq, not_false_eq_true, true_and]
    refine ⟨⟨o, by rw [← hsplit, hd]; simp, ho⟩, ?_⟩
    rintro env rfl
    obtain ⟨hmem, hle⟩ := lowest_spec o rest
    exact ⟨_, o, rest, tx, by rw [← hd]; exact hsplit.symm, hpre, htx, rfl, rfl, hmem, hle⟩

/-! ## Sample inputs -/

def sampleTx : Transaction :=
  { hash := ⟨List.replicate 32 0, by simp⟩, chainId := 1, to_ := none, value := 0, nonce := 0,
    gas := 21000, gasPrice := 1, gasTipCap := 1, gasFeeCap := 1, data := [], data_length := by simp }

def sampleLib : Lib :=
  { rlpStringToTx := fun raw => if raw = lit "0x01" then some sampleTx else none
    sender := fun _ => none
    keccak256 := id
    unicodeLower := id }

def sampleKey : Bytes := lit "0xaaaaaaaaaaaaaaaaaaaaaaaaaaaaaaaaaaaaaaaaaaaaaaaaaaaaaaaaaaaaaaaa"

def otherKey : Bytes := lit "0xbbbbbbbbbbbbbbbbbbbbbbbbbbbbbbbbbbbbbbbbbbbbbbbbbbbbbbbbbbbbbbbb"

def sampleFs : FileSystem := fun f =>
  if f = lit "in.csv" then
    some (lit "1," ++ sampleKey ++ lit ",0x02\n2," ++ sampleKey ++ lit ",0x01\n")
  else if f = lit "twins.csv" then
    some (lit "1," ++ sampleKey ++ lit ",0x01\n1," ++ otherKey ++ lit ",0x01\n")
  else none

theorem sample_loaded_key :
    (∀ f ∈ [lit "in.csv"], (sampleFs f).isSome) ∧
      ((loadTransactionCSVFiles sampleLib sampleFs [lit "in.csv"] []).lookup sampleKey).isSome :=
  ⟨by decide, ((loadTransactionCSVFiles_lookup [lit "in.csv"] [] (by decide) sampleKey).1).mpr
    ⟨by decide, by decide⟩⟩

/-- The first sighting of `sampleKey`, at 1, does not decode: the stored timestamp is 2. -/
theorem loader_timestamp_skips_undecodable_sighting :
    ((loadTransactionCSVFiles sampleLib sampleFs [lit "in.csv"] []).lookup sampleKey).map
        (·.summary.timestamp.val) = some 2 ∧
      (fileObservations sampleLib sampleFs [lit "in.csv"]).map
        (fun o => (o.timestamp.val, decide (o.hash = sampleKey))) = [(1, true), (2, true)] := by
  decide

/-! ## Keys and summary hashes -/

/-- Every loaded summary carries the hash of its own decoded payload. When the hash column of
every observation is that hash, as the collector writes it, every key is its entry's
`Summary.Hash`, and no two entries share one. -/
theorem loaded_summary_hash {fs : FileSystem} (files knownTxsFiles : List Bytes) :
    let m := loadTransactionCSVFiles lib fs files knownTxsFiles
    (∀ k env, m.lookup k = some env →
      ∃ tx, lib.rlpStringToTx env.rlp = some tx ∧ env.summary.hash = tx.hash.hex) ∧
    ((∀ o ∈ fileObservations lib fs files, ∀ tx, lib.rlpStringToTx o.raw = some tx →
        o.hash = tx.hash.hex) →
      (∀ k env, m.lookup k = some env → env.summary.hash = k) ∧
      ∀ k₁ k₂ e₁ e₂, m.lookup k₁ = some e₁ → m.lookup k₂ = some e₂ →
        e₁.summary.hash = e₂.summary.hash → k₁ = k₂) := by
  intro m
  have hkey : (∀ o ∈ fileObservations lib fs files, ∀ tx, lib.rlpStringToTx o.raw = some tx →
      o.hash = tx.hash.hex) → ∀ k env, m.lookup k = some env → env.summary.hash = k := by
    intro hcons k env h
    obtain ⟨o, ho, rfl, tx, htx, -, hh⟩ := lookup_loadTransactionCSVFiles_some h
    rw [hh, hcons o ho tx htx]
  refine ⟨fun k env h => ?_, fun hcons => ⟨hkey hcons, fun k₁ k₂ e₁ e₂ h₁ h₂ he => ?_⟩⟩
  · obtain ⟨o, -, -, tx, htx, hraw, hh⟩ := lookup_loadTransactionCSVFiles_some h
    exact ⟨tx, hraw ▸ htx, hh⟩
  · rw [← hkey hcons k₁ e₁ h₁, ← hkey hcons k₂ e₂ h₂, he]

/-- One payload listed under two hashes in `twins.csv` is loaded twice, under keys that differ
from the `Summary.Hash` both entries share. -/
theorem loader_keys_differ_from_summary_hash :
    let m := loadTransactionCSVFiles sampleLib sampleFs [lit "twins.csv"] []
    (m.lookup sampleKey).map (·.summary.hash) = some sampleTx.hash.hex ∧
      (m.lookup otherKey).map (·.summary.hash) = some sampleTx.hash.hex ∧
      sampleKey ≠ sampleTx.hash.hex := by
  decide

/-! ## Every record of a metadata file, or none -/

/-- `encoding/csv` gives every record of a file the field count of the first, so the
`len(record) < 2` check of `LoadTxHashesFromMetadataCSVFiles` skips every record of a file or
none: a file the reader accepts adds one hash for each of its records, or adds nothing. -/
theorem metadata_file_all_or_none (fs : FileSystem) (f contents : Bytes)
    (records : List (List Bytes)) (hf : fs f = some contents)
    (hr : Csv.readAll contents = .ok records) :
    loadTxHashesFromMetadataCSVFiles lib fs [f] = [] ∨
      (loadTxHashesFromMetadataCSVFiles lib fs [f]).length = records.length := by
  have hu := Csv.readAll_uniform hr
  rw [loadTxHashesFromMetadataCSVFiles,
    loadTxHashes_of_read [f] (fun _ => records) (by simp [hf, hr]) [], List.nil_append,
    List.flatMap_singleton, hashesOfRecords, List.filterMap_eq_nil_iff,
    List.filterMap_length_eq_length]
  cases records with
  | nil => exact .inl fun _ h => nomatch h
  | cons r rest =>
    by_cases h2 : 2 ≤ r.length
    · refine .inr fun r' hr' => ?_
      have hl := (hu r (.head _)).2 r' hr'
      rcases r' with _ | ⟨_, _ | ⟨_, _⟩⟩
      · simp only [List.length_nil] at hl; omega
      · simp only [List.length_singleton] at hl; omega
      · rfl
    · refine .inl fun r' hr' => ?_
      have hl := (hu r (.head _)).2 r' hr'
      rcases r' with _ | ⟨_, _ | ⟨_, _⟩⟩
      · rfl
      · rfl
      · simp only [List.length_cons] at hl; omega

def metadataSampleFs : FileSystem := fun f =>
  if f = lit "m.csv" then some (lit "ts,hash\n1,0xAB\n") else none

theorem sample_metadata_file :
    metadataSampleFs (lit "m.csv") = some (lit "ts,hash\n1,0xAB\n") ∧
    Csv.readAll (lit "ts,hash\n1,0xAB\n") = .ok [[lit "ts", lit "hash"], [lit "1", lit "0xAB"]] ∧
    (loadTxHashesFromMetadataCSVFiles sampleLib metadataSampleFs [lit "m.csv"] = [] ∨
      (loadTxHashesFromMetadataCSVFiles sampleLib metadataSampleFs [lit "m.csv"]).length = 2) :=
  ⟨rfl, rfl, metadata_file_all_or_none metadataSampleFs (lit "m.csv") (lit "ts,hash\n1,0xAB\n")
    _ rfl rfl⟩

/-! ## The blacklist only filters keys -/

theorem foldl_storeEntry_of_not_mem (os : List Observation)
    (hB : ∀ o ∈ os, o.hash ∉ prevKnownTxs) (e : Option TxEnvelope) :
    os.foldl (storeEntry lib prevKnownTxs) e = os.foldl (storeEntry lib []) e := by
  induction os generalizing e with
  | nil => rfl
  | cons o os ih =>
    simp only [List.mem_cons, forall_eq_or_imp] at hB
    simp only [List.foldl_cons, storeEntry, if_neg hB.1, if_neg (List.not_mem_nil o.hash)]
    exact ih hB.2 _

/-- For every file system, readable or not: a hash the blacklist lists is no key of the loaded
map, and the entry of every other hash is the one loading with no blacklist gives. Skipping
a blacklisted line changes nothing for the other hashes. -/
theorem loadTransactionCSVFiles_blacklist_filters (fs : FileSystem)
    (files knownTxsFiles : List Bytes) (k : Bytes) :
    (loadTransactionCSVFiles lib fs files knownTxsFiles).lookup k =
      if k ∈ loadTxHashesFromMetadataCSVFiles lib fs knownTxsFiles then none
      else (loadTransactionCSVFiles lib fs files []).lookup k := by
  have hread : ∀ f ∈ files.takeWhile fun f => (fs f).isSome, (fs f).isSome :=
    fun f hf => List.mem_takeWhile_imp (p := fun f => (fs f).isSome) hf
  have hk : ∀ o ∈ (fileObservations lib fs (files.takeWhile fun f => (fs f).isSome)).filter
      (·.hash = k), o.hash = k := fun o ho => of_decide_eq_true (List.mem_filter.mp ho).2
  rw [loadTransactionCSVFiles, loadTransactionCSVFiles,
    show loadTxHashesFromMetadataCSVFiles lib fs [] = [] from rfl, loadFiles_takeWhile,
    @loadFiles_takeWhile lib [] fs, loadFiles_eq_foldl _ hread, loadFiles_eq_foldl _ hread,
    lookup_foldl_store, lookup_foldl_store, AList.lookup_empty]
  split_ifs with hB
  · exact foldl_storeEntry_known _ (fun o ho => hk o ho ▸ hB) none
  · exact foldl_storeEntry_of_not_mem _ (fun o ho => hk o ho ▸ hB) none

/-! ## The order of the files -/

theorem lowest_lowest_comm (t : Int64) (x y : Observation) :
    lowest (lowest t [x]) [y] = lowest (lowest t [y]) [x] := by
  apply Int64.ext_val
  simp only [lowest, List.foldl_cons, List.foldl_nil]
  split_ifs <;> simp_all only [Int64.lt_def, not_lt] <;> omega

theorem lowest_singleton_comm (x y : Observation) :
    lowest x.timestamp [y] = lowest y.timestamp [x] := by
  apply Int64.ext_val
  simp only [lowest, List.foldl_cons, List.foldl_nil]
  split_ifs <;> simp_all only [Int64.lt_def, not_lt] <;> omega

theorem storeEntry_some_of_not_mem {o : Observation} (ho : o.hash ∉ prevKnownTxs)
    (env : TxEnvelope) :
    storeEntry lib prevKnownTxs (some env) o =
      some { env with
        summary := { env.summary with timestamp := lowest env.summary.timestamp [o] } } :=
  (foldl_storeEntry_some [o] (by simpa using ho) env :
    [o].foldl (storeEntry lib prevKnownTxs) (some env) = _)

theorem storeEntry_none_of_not_mem {o : Observation} (ho : o.hash ∉ prevKnownTxs) :
    storeEntry lib prevKnownTxs none o =
      (lib.rlpStringToTx o.raw).map fun tx => ⟨o.raw, summarize lib o.timestamp tx⟩ := by
  cases h : lib.rlpStringToTx o.raw <;> simp [storeEntry, ho, parseTx, h]

theorem storeEntry_comm {x y : Observation} (hh : x.hash = y.hash) (hr : x.raw = y.raw)
    (e : Option TxEnvelope) :
    storeEntry lib prevKnownTxs (storeEntry lib prevKnownTxs e x) y =
      storeEntry lib prevKnownTxs (storeEntry lib prevKnownTxs e y) x := by
  by_cases hx : x.hash ∈ prevKnownTxs
  · simp only [storeEntry, if_pos hx, if_pos (hh ▸ hx)]
  have hy : y.hash ∉ prevKnownTxs := hh ▸ hx
  cases e with
  | some env =>
    rw [storeEntry_some_of_not_mem hx, storeEntry_some_of_not_mem hy,
      storeEntry_some_of_not_mem hy, storeEntry_some_of_not_mem hx, lowest_lowest_comm]
  | none =>
    rw [storeEntry_none_of_not_mem hx, storeEntry_none_of_not_mem hy, ← hr]
    cases hd : lib.rlpStringToTx x.raw with
    | none =>
      simp only [Option.map_none', storeEntry_none_of_not_mem hx, storeEntry_none_of_not_mem hy,
        ← hr, hd]
    | some tx =>
      rw [Option.map_some', Option.map_some', storeEntry_some_of_not_mem hx,
        storeEntry_some_of_not_mem hy]
      simp only [summarize_timestamp, summarize_with_timestamp, lowest_singleton_comm]

/-- When every two sightings of one hash carry one payload, as the collector writes them,
the order of the input files does not matter: for every blacklist, loading any permutation
of files that all open gives every key the same entry. Otherwise the order decides which
payload, and so which summary, a key keeps. -/
theorem loadTransactionCSVFiles_perm (fs : FileSystem) {files₁ files₂ : List Bytes}
    (hperm : files₁.Perm files₂) (hread : ∀ f ∈ files₁, (fs f).isSome)
    (hraw : ∀ o ∈ fileObservations lib fs files₁, ∀ o' ∈ fileObservations lib fs files₁,
      o.hash = o'.hash → o.raw = o'.raw)
    (knownTxsFiles : List Bytes) (k : Bytes) :
    (loadTransactionCSVFiles lib fs files₁ knownTxsFiles).lookup k =
      (loadTransactionCSVFiles lib fs files₂ knownTxsFiles).lookup k := by
  have hread₂ : ∀ f ∈ files₂, (fs f).isSome := fun f hf => hread f (hperm.symm.subset hf)
  rw [loadTransactionCSVFiles, loadTransactionCSVFiles, loadFiles_eq_foldl _ hread,
    loadFiles_eq_foldl _ hread₂, lookup_foldl_store, lookup_foldl_store]
  refine ((hperm.flatMap_right _).filter _).foldl_eq' (fun x hx y hy z => ?_) _
  rw [List.mem_filter, decide_eq_true_eq] at hx hy
  exact storeEntry_comm (hx.2.trans hy.2.symm) (hraw x hx.1 y hy.1 (hx.2.trans hy.2.symm)) z

def splitFs : FileSystem := fun f =>
  if f = lit "a.csv" then some (lit "3," ++ sampleKey ++ lit ",0x01\n")
  else if f = lit "b.csv" then
    some (lit "1," ++ sampleKey ++ lit ",0x01\n2," ++ otherKey ++ lit ",0x01\n")
  else none

theorem split_files_either_order :
    [lit "a.csv", lit "b.csv"].Perm [lit "b.csv", lit "a.csv"] ∧
    (∀ f ∈ [lit "a.csv", lit "b.csv"], (splitFs f).isSome) ∧
    (∀ o ∈ fileObservations sampleLib splitFs [lit "a.csv", lit "b.csv"],
      ∀ o' ∈ fileObservations sampleLib splitFs [lit "a.csv", lit "b.csv"],
        o.hash = o'.hash → o.raw = o'.raw) ∧
    (loadTransactionCSVFiles sampleLib splitFs [lit "a.csv", lit "b.csv"] []).lookup sampleKey =
      (loadTransactionCSVFiles sampleLib splitFs [lit "b.csv", lit "a.csv"] []).lookup sampleKey :=
  ⟨.swap _ _ _, by decide, by decide,
    loadTransactionCSVFiles_perm splitFs (.swap _ _ _) (by decide) (by decide) [] sampleKey⟩

/-! ## More files never lose a transaction -/

/-- `txs'` keeps every entry of `txs`: the same raw payload and decoded fields, at a timestamp
no later. -/
def Keeps (txs txs' : TxMap) : Prop :=
  ∀ k env, txs.lookup k = some env → ∃ t, t ≤ env.summary.timestamp ∧
    txs'.lookup k = some { env with summary := { env.summary with timestamp := t } }

theorem Keeps.refl (txs : TxMap) : Keeps txs txs :=
  fun _ env h => ⟨env.summary.timestamp, le_refl env.summary.timestamp.val, h⟩

theorem Keeps.trans {txs txs' txs'' : TxMap} (h₁ : Keeps txs txs') (h₂ : Keeps txs' txs'') :
    Keeps txs txs'' := fun k env h => by
  obtain ⟨t, ht, h'⟩ := h₁ k env h
  obtain ⟨t', ht', h''⟩ := h₂ k _ h'
  exact ⟨t', le_trans (α := Int) ht' ht, h''⟩

theorem keeps_store (txs : TxMap) (o : Observation) :
    Keeps txs (store lib prevKnownTxs txs o) := fun k env h => by
  by_cases hk : o.hash = k
  · subst hk
    rw [lookup_store_self, h]
    unfold storeEntry
    by_cases hB : o.hash ∈ prevKnownTxs
    · rw [if_pos hB]
      exact ⟨_, le_refl env.summary.timestamp.val, rfl⟩
    · rw [if_neg hB]
      dsimp only
      split_ifs with hlt
      · exact ⟨o.timestamp, le_of_lt (α := Int) hlt, rfl⟩
      · exact ⟨_, le_refl env.summary.timestamp.val, rfl⟩
  · rw [lookup_store_of_ne _ _ hk]
    exact Keeps.refl txs k env h

theorem keeps_foldl_scanLine (ls : List Bytes) (txs : TxMap) :
    Keeps txs (ls.foldl (scanLine lib prevKnownTxs) txs) := by
  induction ls generalizing txs with
  | nil => exact Keeps.refl txs
  | cons l ls ih =>
    refine Keeps.trans ?_ (ih _)
    unfold scanLine
    split
    · exact keeps_store txs _
    · exact Keeps.refl txs

theorem keeps_loadFiles (fs : FileSystem) (txs : TxMap) (files : List Bytes) :
    Keeps txs (loadFiles lib fs prevKnownTxs txs files) := by
  induction files generalizing txs with
  | nil => exact Keeps.refl txs
  | cons f files ih =>
    unfold loadFiles
    split
    · exact Keeps.refl txs
    · exact (keeps_foldl_scanLine _ txs).trans (ih _)

/-- Loading more input files after the same ones never drops a transaction and never changes
its payload or decoded fields; it can only lower its timestamp. A day's merge run on a longer
list of files keeps every transaction the shorter list loads. -/
theorem loadTransactionCSVFiles_append_keeps (fs : FileSystem)
    (files more knownTxsFiles : List Bytes) :
    Keeps (loadTransactionCSVFiles lib fs files knownTxsFiles)
      (loadTransactionCSVFiles lib fs (files ++ more) knownTxsFiles) := by
  unfold loadTransactionCSVFiles
  generalize (∅ : TxMap) = txs
  induction files generalizing txs with
  | nil => exact keeps_loadFiles fs txs more
  | cons f files ih =>
    simp only [List.cons_append, loadFiles]
    split
    · exact Keeps.refl txs
    · exact ih _

end MempoolArchiver
