import MempoolArchiver.Analyzer
import MempoolArchiver.InclusionPool

/-!
# `mergeTransactions` from the checks to the last write

The stages of the merge composed into one run: the checks before loading,
`LoadTransactionCSVFiles`, the source annotation, `updateInclusionStatus`, the sort and the
writes. `LoadTransactionCSVFiles` returns `map[string]*TxEnvelope`, while the merge reads and
writes the fields of `*common.TxSummaryEntry` (`Sources`, the inclusion status and
`RawTxHex()`); `toEntry` is the bridge between the two. The sourcelog is taken as loaded.

`updateInclusionStatus` here is the effect on the map of the driver and the workers of
`InclusionPool`: every run of that protocol that returns has called `UpdateInclusionStatus`
once on each entry, and a run returns only within the bound `inclusionReturns` states.
-/

namespace MempoolArchiver

open InclusionPool (txCCapacity Pool Reachable)

/-! ## Maps of entries -/

def mapValues {β γ : Type} (f : Bytes → β → γ) (m : AList fun _ : Bytes => β) :
    AList fun _ : Bytes => γ :=
  ⟨m.entries.map fun e => ⟨e.1, f e.1 e.2⟩, by
    unfold List.NodupKeys List.keys
    rw [List.map_map]
    exact m.nodupKeys⟩

@[simp]
theorem entries_mapValues {β γ : Type} (f : Bytes → β → γ) (m : AList fun _ : Bytes => β) :
    (mapValues f m).entries = m.entries.map fun e => ⟨e.1, f e.1 e.2⟩ :=
  rfl

theorem modifyEntries_perm (f : Bytes → TxSummaryEntry → TxSummaryEntry) (txs : EntryMap)
    {keys : List Bytes} (hkeys : keys.Perm txs.keys) :
    (modifyEntries f txs keys).entries.Perm (mapValues f txs).entries := by
  refine List.lookup_ext (modifyEntries f txs keys).nodupKeys (mapValues f txs).nodupKeys
    fun h y => ?_
  show y ∈ (modifyEntries f txs keys).lookup h ↔ y ∈ (mapValues f txs).entries.dlookup h
  rw [lookup_modifyEntries f txs keys (hkeys.nodup_iff.mpr txs.keys_nodup), entries_mapValues,
    List.dlookup_map₂]
  split_ifs with hk
  · rfl
  · have hnone : txs.lookup h = none :=
      AList.lookup_eq_none.mpr fun hm => hk (hkeys.symm.subset (AList.mem_keys.mp hm))
    change y ∈ txs.lookup h ↔ y ∈ (txs.lookup h).map (f h)
    rw [hnone]
    rfl

/-- `LoadTransactionCSVFiles`'s entry as the merge uses it: the summary, whose `RawTxHex()`
is the envelope's raw transaction. -/
def toEntry (env : TxEnvelope) : TxSummaryEntry := { env.summary with rawTxHex := env.rlp }

/-! ## `updateInclusionStatus` on the map -/

/-- Whether `updateInclusionStatus` returns on `n` entries with `W` workers. -/
def inclusionReturns (W n : Nat) : Bool := n = 0 || 0 < W && n ≤ txCCapacity + W

/-- `updateInclusionStatus(log, checkNodeURI, txs)`, with `update` the effect of one call of
`tx.UpdateInclusionStatus(p.ethClient)` on its entry: `none` where it never returns. -/
def updateInclusionStatus (W : Nat) (update : TxSummaryEntry → TxSummaryEntry)
    (txs : EntryMap) : Option EntryMap :=
  if inclusionReturns W txs.entries.length then
    some (modifyEntries (fun _ => update) txs txs.keys)
  else none

/-- Every run of the driver and its workers over the entries of `txs`, sent in any order,
that has returned: the writes of its calls of `UpdateInclusionStatus`, in the order the
calls completed, give the map `updateInclusionStatus` returns. So it returns wherever a run
of the protocol can. -/
theorem updateInclusionStatus_of_returned (W : Nat) (update : TxSummaryEntry → TxSummaryEntry)
    (txs : EntryMap) (keys : List Bytes) (hkeys : keys.Perm txs.keys) (p : Pool Bytes)
    (hr : Reachable W keys p) (hd : p.driver = .returned) :
    ∃ txs', updateInclusionStatus W update txs = some txs' ∧
      (modifyEntries (fun _ => update) txs p.updated).entries.Perm txs'.entries := by
  have hupd : p.updated.Perm txs.keys :=
    ((InclusionPool.Inv.reachable hr).settled (by rw [hd]; rfl)).1.trans hkeys
  have hlen : keys.length = txs.entries.length := hkeys.length_eq.trans (List.length_map _ _)
  have hret : inclusionReturns W txs.entries.length = true := by
    rcases InclusionPool.returned_within_capacity hr hd with h | ⟨hW, h⟩
    · simp [inclusionReturns, ← hlen, h]
    · simp [inclusionReturns, ← hlen, h, hW]
  exact ⟨_, if_pos hret,
    (modifyEntries_perm _ txs hupd).trans (modifyEntries_perm _ txs (.refl _)).symm⟩

def tieRun : Pool Bytes where
  driver := .returned
  txC := []
  workers := [.idle]
  calls := [(0, lit "0x01"), (0, lit "0x02")]
  updated := [lit "0x01", lit "0x02"]
  responses := [lit "0x01", lit "0x02"]

theorem tieRun_reachable : Reachable 1 tieTxs.keys tieRun :=
  .head (.dial (w := 0) rfl) <| .head (.send rfl (by decide)) <|
  .head (.send rfl (by decide)) <| .head (.wait rfl) <| .head (.take (w := 0) rfl rfl) <|
  .head (.update (w := 0) rfl) <| .head (.receive (w := 0) rfl (by decide) rfl) <|
  .head (.take (w := 0) rfl rfl) <| .head (.update (w := 0) rfl) <|
  .head (.receive (w := 0) rfl (by decide) rfl) <| .head (.done rfl (by decide)) .refl

theorem one_worker_updates_tieTxs :
    tieTxs.keys.Perm tieTxs.keys ∧ Reachable 1 tieTxs.keys tieRun ∧ tieRun.driver = .returned ∧
    ∃ txs', updateInclusionStatus 1 (fun tx => { tx with inclusionDelayMs := Int64.zero }) tieTxs =
        some txs' ∧
      (modifyEntries (fun _ tx => { tx with inclusionDelayMs := Int64.zero }) tieTxs
        tieRun.updated).entries.Perm txs'.entries :=
  ⟨.refl _, tieRun_reachable, rfl, updateInclusionStatus_of_returned 1 _ tieTxs tieTxs.keys
    (.refl _) tieRun tieRun_reachable rfl⟩

/-! ## The whole merge -/

/-- `for source := range sourcelog[hash]`, each inner map ranged over by `Rs`. -/
def visitSourcelog (Rs : MapRange Bytes fun _ => Int64) (sourcelog : Sourcelog) (hash : Bytes) :
    List (Sigma fun _ : Bytes => Int64) :=
  ((sourcelog.lookup hash).map Rs.range).getD []

/-- How a run of `mergeTransactions` ends: in a `log.Fatal` of the checks before loading,
waiting in `updateInclusionStatus` for ever, or with the output files written. -/
inductive MergeResult where
  | fatal
  | hangs
  | wrote (out : MergeOutput)
deriving DecidableEq

/-- `mergeTransactions`. `R` is the order of `for hash, tx := range txs`, `Rs` that of each
`range sourcelog[hash]` and `R'` that of the range that fills `txsSlice`; `S` is `sort.Slice`,
`W` is `numRPCWorkers` and `update` the effect of one `tx.UpdateInclusionStatus` call. -/
def mergeTransactions (lib : Lib) (S : SortSlice) (fs : FileSystem)
    (outputFiles inputFiles knownTxsFiles sourcelogFiles : List Bytes) (sourcelog : Sourcelog)
    (writeTxCSV : Bool) (W : Nat) (update : TxSummaryEntry → TxSummaryEntry)
    (R R' : MapRange Bytes fun _ => TxSummaryEntry) (Rs : MapRange Bytes fun _ => Int64) :
    MergeResult :=
  if mergePreflight fs outputFiles inputFiles sourcelogFiles then
    let txs := mapValues (fun _ => toEntry) (loadTransactionCSVFiles lib fs inputFiles knownTxsFiles)
    let txs := annotateSources S (visitSourcelog Rs sourcelog) txs ((R.range txs).map (·.1))
    match updateInclusionStatus W update txs with
    | some txs => .wrote (writeOutputs S writeTxCSV (R'.range txs))
    | none => .hangs
  else .fatal

-- `known.csv` lists `sampleKey`, but the missing blacklist file before it ends the load of the
-- blacklist: the row loaded under `sampleKey` is written.
example : (match mergeTransactions sampleLib insertionSortSlice blacklistFs sampleOutputs
    [lit "in.csv"] [lit "missing.csv", lit "known.csv"] [] ∅ true 4 id MapRange.stored
    MapRange.stored MapRange.stored with
  | .wrote out => out.parquet.map (·.rawTxHex)
  | _ => []) = [lit "0x01"] := by
  decide

end MempoolArchiver
