import MempoolArchiver.Merge
import Mathlib.Data.List.Lex

/-!
# `Analyzer2`

`NewAnalyzer2` makes the analyzer's maps and runs `init`, one pass over the transactions. The
pass counts how many were included on chain, how many each source saw, split by inclusion,
and how many only one source saw, split by source and inclusion. It also notes the first and
last timestamp, and then lists the sources in Go's string order. `Sprint` renders these
numbers as two tables; `sourceRows` and `exclusiveRows` are those tables' numbers, before
formatting.

The counters are `int64` in the source and `Nat` here: each counts loop iterations, and a
map in memory holds far fewer than `2^63` pairs of a transaction and one of its sources. The
pass visits the transactions in the order `enum`, any order of the map's entries; the maps
the analyzer builds itself are ranged over by a `MapRange`.
-/

namespace MempoolArchiver

/-! ## Maps the analyzer builds -/

/-- The order in which a `for ... range` loop visits a map the program built: one the runtime
picks, some permutation of the map's entries. -/
structure MapRange (α : Type) (β : α → Type) where
  range : AList β → List (Sigma β)
  range_perm : ∀ m, (range m).Perm m.entries

def MapRange.stored {α : Type} {β : α → Type} : MapRange α β :=
  ⟨AList.entries, fun _ => .refl _⟩

theorem sum_map_insert {α : Type} [DecidableEq α] {β : α → Type} (w : Sigma β → Nat)
    (m : AList β) (k : α) (v : β k) :
    ((m.insert k v).entries.map w).sum + ((m.lookup k).map fun b => w ⟨k, b⟩).getD 0 =
      (m.entries.map w).sum + w ⟨k, v⟩ := by
  rw [AList.insert_entries]
  by_cases hk : k ∈ m.entries.keys
  · obtain ⟨b, l₁, l₂, -, he, hker⟩ := List.exists_of_kerase hk
    have hb : m.lookup k = some b :=
      Option.mem_def.mp (List.mem_dlookup m.nodupKeys (by rw [he]; simp))
    rw [hker, hb, he]
    simp only [List.map_cons, List.sum_cons, List.map_append, List.sum_append, Option.map_some',
      Option.getD_some]
    omega
  · rw [List.kerase_of_not_mem_keys hk, AList.lookup_eq_none.mpr hk]
    simp only [List.map_cons, List.sum_cons, Option.map_none', Option.getD_none]
    omega

/-- A `map[K]int64` used as a counter. -/
abbrev Counter (κ : Type) [DecidableEq κ] := AList fun _ : κ => Nat

namespace Counter

variable {κ : Type} [DecidableEq κ]

/-- `m[k]`: zero for a key the map lacks. -/
def get (m : Counter κ) (k : κ) : Nat := (m.lookup k).getD 0

/-- `m[k] += 1`. -/
def bump (m : Counter κ) (k : κ) : Counter κ := m.insert k (m.get k + 1)

def total (m : Counter κ) : Nat := (m.entries.map (·.2)).sum

@[simp] theorem get_empty (k : κ) : (∅ : Counter κ).get k = 0 := rfl

@[simp] theorem total_empty : (∅ : Counter κ).total = 0 := rfl

@[simp] theorem get_bump (m : Counter κ) (k k' : κ) :
    (m.bump k).get k' = m.get k' + if k' = k then 1 else 0 := by
  by_cases h : k' = k
  · subst h; simp [bump, get, AList.lookup_insert]
  · simp [bump, get, AList.lookup_insert_ne h, h]

@[simp] theorem mem_bump {m : Counter κ} {k k' : κ} : k' ∈ m.bump k ↔ k' = k ∨ k' ∈ m :=
  AList.mem_insert _

theorem total_bump (m : Counter κ) (k : κ) : (m.bump k).total = m.total + 1 := by
  have h := sum_map_insert (·.2) m k (m.get k + 1)
  simp only [Option.map_id'] at h
  unfold total bump
  unfold get at h ⊢
  omega

theorem get_foldl_bump [BEq κ] [LawfulBEq κ] (l : List κ) (m : Counter κ) (k : κ) :
    (l.foldl bump m).get k = m.get k + l.count k := by
  induction l generalizing m with
  | nil => rfl
  | cons x l ih =>
    rw [List.foldl_cons, ih, get_bump, List.count_cons]
    by_cases h : k = x <;> simp [h, Ne.symm, Nat.add_assoc, Nat.add_comm 1]

theorem mem_foldl_bump {l : List κ} {m : Counter κ} {k : κ} :
    k ∈ l.foldl bump m ↔ k ∈ l ∨ k ∈ m := by
  induction l generalizing m with
  | nil => simp
  | cons x l ih => simp only [List.foldl_cons, ih, mem_bump, List.mem_cons]; tauto

theorem mem_of_get_pos {m : Counter κ} {k : κ} (h : 0 < m.get k) : k ∈ m := by
  by_contra hk
  simp [get, AList.lookup_eq_none.mpr hk] at h

end Counter

/-! ## Strings and times -/

def byteValues (s : Bytes) : List Nat := s.map UInt8.toNat

theorem byteValues_injective : Function.Injective byteValues :=
  List.map_injective_iff.mpr fun _ _ => UInt8.toNat.inj

/-- `sort.Strings`. A list has one sorted permutation under a linear order
(`List.eq_of_perm_of_sorted`), so insertion sort gives what Go's pattern-defeating quicksort
gives. -/
def sortStrings (x : List Bytes) : List Bytes :=
  x.insertionSort fun a b => byteValues a ≤ byteValues b

theorem sortStrings_perm (x : List Bytes) : (sortStrings x).Perm x := List.perm_insertionSort _ _

theorem sortStrings_sorted {x : List Bytes} (hx : x.Nodup) :
    (sortStrings x).Sorted fun a b => byteValues a < byteValues b := by
  haveI : IsTotal Bytes fun a b => byteValues a ≤ byteValues b := ⟨fun a b => le_total _ _⟩
  haveI : IsTrans Bytes fun a b => byteValues a ≤ byteValues b := ⟨fun _ _ _ => le_trans⟩
  have hle := List.pairwise_map.mpr
    (List.sorted_insertionSort (fun a b : Bytes => byteValues a ≤ byteValues b) x)
  have hnd := ((sortStrings_perm x).nodup_iff.mpr hx).map byteValues_injective
  exact List.pairwise_map.mp (List.Sorted.lt_of_le hle hnd)

def Int64.saturate (v : Int) : Int64 := ⟨max (-2 ^ 63) (min v (2 ^ 63 - 1)), by omega, by omega⟩

/-- A `time.Time` made by `time.Unix(sec, 0).UTC()`, kept as its seconds since the Unix epoch:
such a time has no nanoseconds, and `UTC` changes only its location. -/
structure Time where
  unixSec : Int
deriving DecidableEq

/-- The zero `time.Time`: January 1 of year 1, 00:00:00 UTC. -/
def Time.zero : Time := ⟨-62135596800⟩

/-- `time.Unix(sec, 0).UTC()`. -/
def Time.unix (sec : Int) : Time := ⟨sec⟩

/-- `t.Sub(u)`: the nanoseconds from `u` to `t`, or the largest (smallest) `Duration` when
they exceed it. -/
def Time.sub (t u : Time) : Int64 := Int64.saturate ((t.unixSec - u.unixSec) * 1000000000)

theorem Time.sub_nonneg {t u : Time} (h : u.unixSec ≤ t.unixSec) : 0 ≤ (t.sub u).val := by
  simp only [Time.sub, Int64.saturate]
  omega

theorem Time.unix_tdiv_le {a b : Int} (ha : 0 ≤ a) (hab : a ≤ b) :
    (Time.unix (a.tdiv 1000)).unixSec ≤ (Time.unix (b.tdiv 1000)).unixSec := by
  show a.tdiv 1000 ≤ b.tdiv 1000
  rw [Int.tdiv_eq_ediv ha (by norm_num), Int.tdiv_eq_ediv (ha.trans hab) (by norm_num)]
  exact Int.ediv_le_ediv (by norm_num) hab

/-! ## The analyzer -/

/-- `tx.IncludedAtBlockHeight != 0`. -/
def TxSummaryEntry.included (tx : TxSummaryEntry) : Bool := tx.includedAtBlockHeight.val ≠ 0

/-- The fields of `Analyzer2` that `init` sets; `opts` is passed to the functions that read
it. -/
structure Analyzer2 where
  nTransactionsPerSource : Counter Bytes
  sources : List Bytes
  nUniqueTransactions : Nat
  nIncluded : Nat
  nNotIncluded : Nat
  nTxOnChainBySource : Counter Bytes
  nTxNotOnChainBySource : Counter Bytes
  nTxExclusiveIncluded : AList fun _ : Bytes => Counter Bool
  nExclusiveOrderflow : Nat
  nTxExclusiveIncludedCnt : Nat
  nTxExclusiveNotIncludedCnt : Nat
  timestampFirst : Int64
  timestampLast : Int64
  timeFirst : Time
  timeLast : Time
  duration : Int64

namespace Analyzer2

/-- The analyzer `NewAnalyzer2` runs `init` on: its maps made empty, every other field zero. -/
def empty : Analyzer2 where
  nTransactionsPerSource := ∅
  sources := []
  nUniqueTransactions := 0
  nIncluded := 0
  nNotIncluded := 0
  nTxOnChainBySource := ∅
  nTxNotOnChainBySource := ∅
  nTxExclusiveIncluded := ∅
  nExclusiveOrderflow := 0
  nTxExclusiveIncludedCnt := 0
  nTxExclusiveNotIncludedCnt := 0
  timestampFirst := Int64.zero
  timestampLast := Int64.zero
  timeFirst := Time.zero
  timeLast := Time.zero
  duration := Int64.zero

/-- The body of `init`'s loop over `tx.Sources`, at the source `src`. A missing
`nTxExclusiveIncluded[src]` is made empty before it is counted in. -/
def countSource (tx : TxSummaryEntry) (a : Analyzer2) (src : Bytes) : Analyzer2 :=
  let exclusive := tx.sources.length = 1
  { a with
    nTransactionsPerSource := a.nTransactionsPerSource.bump src
    nTxNotOnChainBySource :=
      if tx.included then a.nTxNotOnChainBySource else a.nTxNotOnChainBySource.bump src
    nTxOnChainBySource :=
      if tx.included then a.nTxOnChainBySource.bump src else a.nTxOnChainBySource
    nTxExclusiveIncluded :=
      if exclusive then
        a.nTxExclusiveIncluded.insert src
          (((a.nTxExclusiveIncluded.lookup src).getD ∅).bump tx.included)
      else a.nTxExclusiveIncluded
    nExclusiveOrderflow := if exclusive then a.nExclusiveOrderflow + 1 else a.nExclusiveOrderflow
    nTxExclusiveNotIncludedCnt :=
      if exclusive ∧ !tx.included then a.nTxExclusiveNotIncludedCnt + 1
      else a.nTxExclusiveNotIncludedCnt
    nTxExclusiveIncludedCnt :=
      if exclusive ∧ tx.included then a.nTxExclusiveIncludedCnt + 1
      else a.nTxExclusiveIncludedCnt }

/-- `if cur == 0 || t < cur { cur = t }`: the least timestamp so far, 0 standing for none. -/
def keepFirst (cur t : Int64) : Int64 := if cur.val = 0 ∨ t < cur then t else cur

/-- `if cur == 0 || t > cur { cur = t }`: the greatest timestamp so far, 0 standing for
none. -/
def keepLast (cur t : Int64) : Int64 := if cur.val = 0 ∨ t > cur then t else cur

/-- The first statement of `init`'s loop body: `tx` counted as included or not. -/
def countInclusion (a : Analyzer2) (tx : TxSummaryEntry) : Analyzer2 :=
  { a with
    nNotIncluded := if tx.included then a.nNotIncluded else a.nNotIncluded + 1
    nIncluded := if tx.included then a.nIncluded + 1 else a.nIncluded }

/-- The body of `init`'s loop over the transactions. -/
def initStep (a : Analyzer2) (tx : TxSummaryEntry) : Analyzer2 :=
  let a := tx.sources.foldl (countSource tx) (a.countInclusion tx)
  { a with
    timestampFirst := keepFirst a.timestampFirst tx.timestamp
    timestampLast := keepLast a.timestampLast tx.timestamp }

/-- `init`, visiting the transactions `txs` in the order `enum` and ranging over
`nTransactionsPerSource` with `R`. -/
def init (R : MapRange Bytes fun _ => Nat) (txs : EntryMap)
    (enum : List (Sigma fun _ : Bytes => TxSummaryEntry)) (a : Analyzer2) : Analyzer2 :=
  let a := (enum.map (·.2)).foldl initStep { a with nUniqueTransactions := txs.entries.length }
  let timeFirst := Time.unix (a.timestampFirst.val.tdiv 1000)
  let timeLast := Time.unix (a.timestampLast.val.tdiv 1000)
  { a with
    timeFirst := timeFirst
    timeLast := timeLast
    duration := timeLast.sub timeFirst
    sources := sortStrings (a.sources ++ (R.range a.nTransactionsPerSource).map (·.1)) }

/-! ### What one transaction adds -/

section Step

variable {a : Analyzer2} {tx : TxSummaryEntry}

theorem foldl_frame {σ ι β : Type} (g : σ → ι → σ) (f : σ → β) (hf : ∀ a x, f (g a x) = f a)
    (l : List ι) (a : σ) : f (l.foldl g a) = f a := by
  induction l generalizing a with
  | nil => rfl
  | cons x l ih => rw [List.foldl_cons, ih, hf]

theorem initStep_proj {β : Type} (f : Analyzer2 → β)
    (hf : ∀ b : Analyzer2, ∀ t₁ t₂, f { b with timestampFirst := t₁, timestampLast := t₂ } = f b) :
    f (a.initStep tx) = f (tx.sources.foldl (countSource tx) (a.countInclusion tx)) :=
  hf _ _ _

@[simp] theorem initStep_nIncluded :
    (a.initStep tx).nIncluded = a.nIncluded + if tx.included then 1 else 0 := by
  rw [initStep_proj nIncluded (fun _ _ _ => rfl),
    foldl_frame (countSource tx) nIncluded (fun _ _ => rfl), countInclusion]
  split <;> simp_all

@[simp] theorem initStep_nNotIncluded :
    (a.initStep tx).nNotIncluded = a.nNotIncluded + if tx.included then 0 else 1 := by
  rw [initStep_proj nNotIncluded (fun _ _ _ => rfl),
    foldl_frame (countSource tx) nNotIncluded (fun _ _ => rfl), countInclusion]
  split <;> simp_all

@[simp] theorem initStep_nUniqueTransactions :
    (a.initStep tx).nUniqueTransactions = a.nUniqueTransactions :=
  foldl_frame (countSource tx) nUniqueTransactions (fun _ _ => rfl) _ _

@[simp] theorem initStep_sources : (a.initStep tx).sources = a.sources :=
  foldl_frame (countSource tx) sources (fun _ _ => rfl) _ _

@[simp] theorem initStep_timestampFirst :
    (a.initStep tx).timestampFirst = keepFirst a.timestampFirst tx.timestamp := by
  show keepFirst (tx.sources.foldl (countSource tx) (a.countInclusion tx)).timestampFirst _ = _
  rw [foldl_frame (countSource tx) timestampFirst (fun _ _ => rfl)]
  rfl

@[simp] theorem initStep_timestampLast :
    (a.initStep tx).timestampLast = keepLast a.timestampLast tx.timestamp := by
  show keepLast (tx.sources.foldl (countSource tx) (a.countInclusion tx)).timestampLast _ = _
  rw [foldl_frame (countSource tx) timestampLast (fun _ _ => rfl)]
  rfl

@[simp] theorem get_initStep_perSource (s : Bytes) :
    (a.initStep tx).nTransactionsPerSource.get s =
      a.nTransactionsPerSource.get s + tx.sources.count s := by
  rw [initStep_proj nTransactionsPerSource (fun _ _ _ => rfl),
    ← List.foldl_hom nTransactionsPerSource _ Counter.bump _ _ fun _ _ => rfl,
    Counter.get_foldl_bump]
  rfl

@[simp] theorem mem_initStep_perSource (s : Bytes) :
    s ∈ (a.initStep tx).nTransactionsPerSource ↔ s ∈ tx.sources ∨ s ∈ a.nTransactionsPerSource := by
  rw [initStep_proj nTransactionsPerSource (fun _ _ _ => rfl),
    ← List.foldl_hom nTransactionsPerSource _ Counter.bump _ _ fun _ _ => rfl,
    Counter.mem_foldl_bump]
  rfl

@[simp] theorem get_initStep_onChain (s : Bytes) :
    (a.initStep tx).nTxOnChainBySource.get s =
      a.nTxOnChainBySource.get s + if tx.included then tx.sources.count s else 0 := by
  rw [initStep_proj nTxOnChainBySource (fun _ _ _ => rfl),
    ← List.foldl_hom nTxOnChainBySource _ (fun m src => if tx.included then m.bump src else m)
      _ _ fun _ _ => rfl]
  cases tx.included <;> simp [Counter.get_foldl_bump, List.foldl_fixed, countInclusion]

@[simp] theorem get_initStep_notOnChain (s : Bytes) :
    (a.initStep tx).nTxNotOnChainBySource.get s =
      a.nTxNotOnChainBySource.get s + if tx.included then 0 else tx.sources.count s := by
  rw [initStep_proj nTxNotOnChainBySource (fun _ _ _ => rfl),
    ← List.foldl_hom nTxNotOnChainBySource _ (fun m src => if tx.included then m else m.bump src)
      _ _ fun _ _ => rfl]
  cases tx.included <;> simp [Counter.get_foldl_bump, List.foldl_fixed, countInclusion]

theorem initStep_of_exclusive {s : Bytes} (hs : tx.sources = [s]) :
    (a.initStep tx).nTxExclusiveIncluded =
        a.nTxExclusiveIncluded.insert s
          (((a.nTxExclusiveIncluded.lookup s).getD ∅).bump tx.included) ∧
      (a.initStep tx).nExclusiveOrderflow = a.nExclusiveOrderflow + 1 ∧
      (a.initStep tx).nTxExclusiveIncludedCnt =
        a.nTxExclusiveIncludedCnt + (if tx.included then 1 else 0) ∧
      (a.initStep tx).nTxExclusiveNotIncludedCnt =
        a.nTxExclusiveNotIncludedCnt + (if tx.included then 0 else 1) := by
  have single : ∀ {β : Type} (f : Analyzer2 → β), (∀ b : Analyzer2, ∀ t₁ t₂,
      f { b with timestampFirst := t₁, timestampLast := t₂ } = f b) →
      f (a.initStep tx) = f (countSource tx (a.countInclusion tx) s) := fun f hf => by
    rw [initStep_proj f hf, hs]; rfl
  rw [single nTxExclusiveIncluded (fun _ _ _ => rfl), single nExclusiveOrderflow (fun _ _ _ => rfl),
    single nTxExclusiveIncludedCnt (fun _ _ _ => rfl),
    single nTxExclusiveNotIncludedCnt (fun _ _ _ => rfl)]
  simp only [countSource, countInclusion, hs, List.length_singleton, true_and, if_true]
  cases tx.included <;> simp

theorem initStep_of_not_exclusive (hs : tx.sources.length ≠ 1) :
    (a.initStep tx).nTxExclusiveIncluded = a.nTxExclusiveIncluded ∧
      (a.initStep tx).nExclusiveOrderflow = a.nExclusiveOrderflow ∧
      (a.initStep tx).nTxExclusiveIncludedCnt = a.nTxExclusiveIncludedCnt ∧
      (a.initStep tx).nTxExclusiveNotIncludedCnt = a.nTxExclusiveNotIncludedCnt := by
  have frame : ∀ {β : Type} (f : Analyzer2 → β), (∀ b : Analyzer2, ∀ t₁ t₂,
      f { b with timestampFirst := t₁, timestampLast := t₂ } = f b) →
      (∀ b src, f (countSource tx b src) = f b) → f (a.countInclusion tx) = f a →
      f (a.initStep tx) = f a := fun f hf hc hi => by
    rw [initStep_proj f hf, foldl_frame (countSource tx) f hc, hi]
  have hne : ¬tx.sources.length = 1 := hs
  exact ⟨frame nTxExclusiveIncluded (fun _ _ _ => rfl) (fun _ _ => if_neg hne) rfl,
    frame nExclusiveOrderflow (fun _ _ _ => rfl) (fun _ _ => if_neg hne) rfl,
    frame nTxExclusiveIncludedCnt (fun _ _ _ => rfl) (fun _ _ => if_neg (by simp [hne])) rfl,
    frame nTxExclusiveNotIncludedCnt (fun _ _ _ => rfl) (fun _ _ => if_neg (by simp [hne])) rfl⟩

@[simp] theorem get_initStep_exclusive (s : Bytes) (b : Bool) :
    (((a.initStep tx).nTxExclusiveIncluded.lookup s).getD ∅).get b =
      ((a.nTxExclusiveIncluded.lookup s).getD ∅).get b +
        if tx.sources = [s] ∧ tx.included = b then 1 else 0 := by
  by_cases hx : tx.sources.length = 1
  · obtain ⟨s₀, hs₀⟩ := List.length_eq_one.mp hx
    rw [(initStep_of_exclusive hs₀).1, hs₀]
    by_cases h : s = s₀
    · subst h; simp [AList.lookup_insert, eq_comm]
    · simp [AList.lookup_insert_ne h, Ne.symm h]
  · rw [(initStep_of_not_exclusive hx).1, if_neg fun h => hx (by simp [h.1])]
    rfl

@[simp] theorem mem_initStep_exclusive (s : Bytes) :
    s ∈ (a.initStep tx).nTxExclusiveIncluded ↔ tx.sources = [s] ∨ s ∈ a.nTxExclusiveIncluded := by
  by_cases hx : tx.sources.length = 1
  · obtain ⟨s₀, hs₀⟩ := List.length_eq_one.mp hx
    simp [(initStep_of_exclusive hs₀).1, hs₀, eq_comm]
  · rw [(initStep_of_not_exclusive hx).1]
    exact ⟨Or.inr, fun h => h.resolve_left fun h => hx (by simp [h])⟩

@[simp] theorem initStep_nExclusiveOrderflow :
    (a.initStep tx).nExclusiveOrderflow =
      a.nExclusiveOrderflow + if tx.sources.length = 1 then 1 else 0 := by
  by_cases hx : tx.sources.length = 1
  · obtain ⟨s₀, hs₀⟩ := List.length_eq_one.mp hx
    simp [(initStep_of_exclusive hs₀).2.1, hx]
  · simp [(initStep_of_not_exclusive hx).2.1, hx]

@[simp] theorem initStep_nTxExclusiveIncludedCnt :
    (a.initStep tx).nTxExclusiveIncludedCnt =
      a.nTxExclusiveIncludedCnt + if tx.sources.length = 1 ∧ tx.included then 1 else 0 := by
  by_cases hx : tx.sources.length = 1
  · obtain ⟨s₀, hs₀⟩ := List.length_eq_one.mp hx
    simp [(initStep_of_exclusive hs₀).2.2.1, hx]
  · simp [(initStep_of_not_exclusive hx).2.2.1, hx]

@[simp] theorem initStep_nTxExclusiveNotIncludedCnt :
    (a.initStep tx).nTxExclusiveNotIncludedCnt =
      a.nTxExclusiveNotIncludedCnt + if tx.sources.length = 1 ∧ !tx.included then 1 else 0 := by
  by_cases hx : tx.sources.length = 1
  · obtain ⟨s₀, hs₀⟩ := List.length_eq_one.mp hx
    cases h : tx.included <;> simp [(initStep_of_exclusive hs₀).2.2.2, hx, h]
  · simp [(initStep_of_not_exclusive hx).2.2.2, hx]

theorem total_initStep_exclusive :
    ((a.initStep tx).nTxExclusiveIncluded.entries.map (·.2.total)).sum =
      (a.nTxExclusiveIncluded.entries.map (·.2.total)).sum +
        if tx.sources.length = 1 then 1 else 0 := by
  by_cases hx : tx.sources.length = 1
  · obtain ⟨s₀, hs₀⟩ := List.length_eq_one.mp hx
    have h := sum_map_insert (·.2.total) a.nTxExclusiveIncluded s₀
      (((a.nTxExclusiveIncluded.lookup s₀).getD ∅).bump tx.included)
    have hold : ((a.nTxExclusiveIncluded.lookup s₀).map fun c => c.total).getD 0 =
        ((a.nTxExclusiveIncluded.lookup s₀).getD ∅).total := by
      cases a.nTxExclusiveIncluded.lookup s₀ <;> rfl
    simp only [Counter.total_bump, hold] at h
    rw [(initStep_of_exclusive hs₀).1, if_pos hx]
    omega
  · rw [(initStep_of_not_exclusive hx).1, if_neg hx]
    rfl

end Step

/-! ### The loop invariant -/

structure Counted (done : List TxSummaryEntry) (a : Analyzer2) : Prop where
  nIncluded : a.nIncluded = done.countP (·.included)
  nNotIncluded : a.nNotIncluded = done.countP (!·.included)
  perSource : ∀ s, a.nTransactionsPerSource.get s = (done.map (·.sources.count s)).sum
  mem_perSource : ∀ s, s ∈ a.nTransactionsPerSource ↔ ∃ tx ∈ done, s ∈ tx.sources
  onChain : ∀ s,
    a.nTxOnChainBySource.get s = ((done.filter (·.included)).map (·.sources.count s)).sum
  notOnChain : ∀ s,
    a.nTxNotOnChainBySource.get s = ((done.filter (!·.included)).map (·.sources.count s)).sum
  exclusive : ∀ s b, ((a.nTxExclusiveIncluded.lookup s).getD ∅).get b =
    done.countP fun tx => tx.sources = [s] ∧ tx.included = b
  mem_exclusive : ∀ s, s ∈ a.nTxExclusiveIncluded ↔ ∃ tx ∈ done, tx.sources = [s]
  nExclusiveOrderflow : a.nExclusiveOrderflow = done.countP (·.sources.length = 1)
  includedCnt : a.nTxExclusiveIncludedCnt =
    done.countP fun tx => tx.sources.length = 1 ∧ tx.included
  notIncludedCnt : a.nTxExclusiveNotIncludedCnt =
    done.countP fun tx => tx.sources.length = 1 ∧ !tx.included
  total : (a.nTxExclusiveIncluded.entries.map (·.2.total)).sum = a.nExclusiveOrderflow

theorem counted_start (n : Nat) : Counted [] { empty with nUniqueTransactions := n } := by
  constructor <;> intros <;> first | rfl | simp [empty]

theorem Counted.step {done : List TxSummaryEntry} {a : Analyzer2} (h : Counted done a)
    (tx : TxSummaryEntry) : Counted (done ++ [tx]) (a.initStep tx) := by
  constructor
  · simp [h.nIncluded, List.countP_append, List.countP_cons]
  · cases hi : tx.included <;> simp [h.nNotIncluded, List.countP_append, List.countP_cons, hi]
  · intro s; simp [h.perSource]
  · intro s; simp [h.mem_perSource, or_comm]
  · intro s; cases hi : tx.included <;> simp [h.onChain, List.filter_append, hi]
  · intro s; cases hi : tx.included <;> simp [h.notOnChain, List.filter_append, hi]
  · intro s b; simp [h.exclusive, List.countP_append, List.countP_cons]
  · intro s; simp [h.mem_exclusive, or_comm]
  · simp [h.nExclusiveOrderflow, List.countP_append, List.countP_cons]
  · simp [h.includedCnt, List.countP_append, List.countP_cons]
  · simp [h.notIncludedCnt, List.countP_append, List.countP_cons]
  · rw [total_initStep_exclusive, h.total, initStep_nExclusiveOrderflow]


theorem Counted.foldl {done : List TxSummaryEntry} {a : Analyzer2} (h : Counted done a)
    (l : List TxSummaryEntry) : Counted (done ++ l) (l.foldl initStep a) := by
  induction l generalizing done a with
  | nil => simpa using h
  | cons tx l ih => simpa using ih (h.step tx)

end Analyzer2

/-- `NewAnalyzer2(opts)` with `opts.Transactions = txs`. -/
def newAnalyzer2 (R : MapRange Bytes fun _ => Nat) (txs : EntryMap)
    (enum : List (Sigma fun _ : Bytes => TxSummaryEntry)) : Analyzer2 :=
  Analyzer2.empty.init R txs enum

/-- The numbers of `Sprint`'s per-source table, one row per source in `a.sources`: the
source, `nTx`, `nOnChain` and `nNotIncluded`. The last two are shown as shares of `nTx`. -/
def sourceRows (a : Analyzer2) : List (Bytes × Nat × Nat × Nat) :=
  a.sources.map fun src =>
    (src, a.nTransactionsPerSource.get src, a.nTxOnChainBySource.get src,
      a.nTxNotOnChainBySource.get src)

/-- The numbers of `Sprint`'s table of exclusive transactions, one row per source in
`a.sources` with an `nTxExclusiveIncluded` entry: the source, `nExclusive`, `nIncluded` and
`nNotIncluded`. The last two are shown as shares of `nExclusive`. -/
def exclusiveRows (a : Analyzer2) : List (Bytes × Nat × Nat × Nat) :=
  a.sources.filterMap fun src =>
    (a.nTxExclusiveIncluded.lookup src).map fun counts =>
      (src, counts.get true + counts.get false, counts.get true, counts.get false)

namespace Analyzer2

theorem newAnalyzer2_counted (R : MapRange Bytes fun _ => Nat) (txs : EntryMap)
    (enum : List (Sigma fun _ : Bytes => TxSummaryEntry)) :
    Counted (enum.map (·.2)) (newAnalyzer2 R txs enum) := by
  have h := (counted_start txs.entries.length).foldl (enum.map (·.2))
  rw [List.nil_append] at h
  exact ⟨h.1, h.2, h.3, h.4, h.5, h.6, h.7, h.8, h.9, h.10, h.11, h.12⟩

theorem newAnalyzer2_nUniqueTransactions (R : MapRange Bytes fun _ => Nat) (txs : EntryMap)
    (enum : List (Sigma fun _ : Bytes => TxSummaryEntry)) :
    (newAnalyzer2 R txs enum).nUniqueTransactions = txs.entries.length :=
  foldl_frame initStep nUniqueTransactions (fun _ _ => initStep_nUniqueTransactions) _ _

theorem newAnalyzer2_sources (R : MapRange Bytes fun _ => Nat) (txs : EntryMap)
    (enum : List (Sigma fun _ : Bytes => TxSummaryEntry)) :
    (newAnalyzer2 R txs enum).sources =
      sortStrings ((R.range (newAnalyzer2 R txs enum).nTransactionsPerSource).map (·.1)) := by
  show sortStrings ((List.foldl initStep _ _).sources ++ _) = _
  rw [foldl_frame initStep sources (fun _ _ => initStep_sources)]
  rfl

end Analyzer2

/-! ## The counters agree -/

theorem sum_count_eq_countP {txns : List TxSummaryEntry} (h : ∀ tx ∈ txns, tx.sources.Nodup)
    (s : Bytes) : (txns.map (·.sources.count s)).sum = txns.countP (s ∈ ·.sources) := by
  induction txns with
  | nil => rfl
  | cons tx txns ih =>
    have hc : tx.sources.count s = if s ∈ tx.sources then 1 else 0 := by
      convert List.count_eq_of_nodup (h tx (.head _))
    rw [List.map_cons, List.sum_cons, List.countP_cons, ih fun t ht => h t (.tail _ ht), hc,
      Nat.add_comm]
    simp

theorem countP_split {α : Type} (l : List α) (p q : α → Bool) :
    l.countP p = l.countP (fun x => p x && q x) + l.countP (fun x => p x && !q x) := by
  induction l with
  | nil => rfl
  | cons x l ih =>
    cases hp : p x <;> cases hq : q x <;> simp [List.countP_cons, hp, hq, ih] <;> omega

/-- What `NewAnalyzer2` leaves for a map whose transactions are `txns`: the counters agree with
the transactions and with one another, `sources` lists every source once in Go's string order,
and every count `Sprint` divides a per-source figure by is positive. -/
structure Analyzer2.Consistent (txns : List TxSummaryEntry) (a : Analyzer2) : Prop where
  included_add : a.nIncluded + a.nNotIncluded = a.nUniqueTransactions
  nUniqueTransactions : a.nUniqueTransactions = txns.length
  nIncluded : a.nIncluded = txns.countP (·.included)
  perSource : ∀ s, a.nTransactionsPerSource.get s = txns.countP (s ∈ ·.sources)
  onChain : ∀ s,
    a.nTxOnChainBySource.get s = txns.countP fun tx => s ∈ tx.sources ∧ tx.included
  notOnChain : ∀ s,
    a.nTxNotOnChainBySource.get s = txns.countP fun tx => s ∈ tx.sources ∧ !tx.included
  perSource_split : ∀ s,
    a.nTransactionsPerSource.get s = a.nTxOnChainBySource.get s + a.nTxNotOnChainBySource.get s
  nExclusiveOrderflow : a.nExclusiveOrderflow = txns.countP (·.sources.length = 1)
  exclusive_split :
    a.nExclusiveOrderflow = a.nTxExclusiveIncludedCnt + a.nTxExclusiveNotIncludedCnt
  exclusive_total : a.nExclusiveOrderflow = (a.nTxExclusiveIncluded.entries.map (·.2.total)).sum
  exclusive : ∀ s b, ((a.nTxExclusiveIncluded.lookup s).getD ∅).get b =
    txns.countP fun tx => tx.sources = [s] ∧ tx.included = b
  sources_sorted : a.sources.Sorted fun s t => byteValues s < byteValues t
  mem_sources : ∀ s, s ∈ a.sources ↔ ∃ tx ∈ txns, s ∈ tx.sources
  sourceRows_pos : ∀ row ∈ sourceRows a, 0 < row.2.1
  exclusiveRows_pos : ∀ row ∈ exclusiveRows a, 0 < row.2.1

/-- After `NewAnalyzer2`, whatever order its loops visit their maps in, the analyzer is
consistent with the transactions of the map, when no transaction lists a source twice. -/
theorem newAnalyzer2_counters (R : MapRange Bytes fun _ => Nat) (txs : EntryMap)
    (hnodup : ∀ e ∈ txs.entries, e.2.sources.Nodup)
    (enum : List (Sigma fun _ : Bytes => TxSummaryEntry)) (henum : enum.Perm txs.entries) :
    (newAnalyzer2 R txs enum).Consistent (txs.entries.map (·.2)) := by
  set a := newAnalyzer2 R txs enum
  set txns := txs.entries.map (·.2)
  have hc := Analyzer2.newAnalyzer2_counted R txs enum
  have hp : (enum.map (·.2)).Perm txns := henum.map _
  have hnd : ∀ tx ∈ txns, tx.sources.Nodup := fun tx htx => by
    obtain ⟨e, he, rfl⟩ := List.mem_map.mp htx
    exact hnodup e he
  have hndf : ∀ (q : TxSummaryEntry → Bool), ∀ tx ∈ txns.filter q, tx.sources.Nodup :=
    fun _ tx htx => hnd tx (List.mem_of_mem_filter htx)
  have perSource : ∀ s, a.nTransactionsPerSource.get s = txns.countP (s ∈ ·.sources) :=
    fun s => by rw [hc.perSource, (hp.map _).sum_eq, sum_count_eq_countP hnd]
  have onChain : ∀ s, a.nTxOnChainBySource.get s =
      txns.countP (fun tx => s ∈ tx.sources ∧ tx.included) := fun s => by
    rw [hc.onChain, ((hp.filter _).map _).sum_eq, sum_count_eq_countP (hndf _), List.countP_filter]
    simp
  have notOnChain : ∀ s, a.nTxNotOnChainBySource.get s =
      txns.countP (fun tx => s ∈ tx.sources ∧ !tx.included) := fun s => by
    rw [hc.notOnChain, ((hp.filter _).map _).sum_eq, sum_count_eq_countP (hndf _),
      List.countP_filter]
    simp
  have exclusive : ∀ s b, ((a.nTxExclusiveIncluded.lookup s).getD ∅).get b =
      txns.countP fun tx => tx.sources = [s] ∧ tx.included = b :=
    fun s b => (hc.exclusive s b).trans (hp.countP_eq _)
  have mem : ∀ s, s ∈ a.sources ↔ ∃ tx ∈ txns, s ∈ tx.sources := fun s => by
    rw [Analyzer2.newAnalyzer2_sources, (sortStrings_perm _).mem_iff,
      ((R.range_perm _).map _).mem_iff]
    change s ∈ a.nTransactionsPerSource.keys ↔ _
    rw [← AList.mem_keys, hc.mem_perSource]
    exact ⟨fun ⟨tx, htx, hs⟩ => ⟨tx, hp.subset htx, hs⟩,
      fun ⟨tx, htx, hs⟩ => ⟨tx, hp.symm.subset htx, hs⟩⟩
  refine ⟨?_, ?_, ?_, perSource, onChain, notOnChain, fun s => ?_, ?_, ?_, ?_, exclusive, ?_,
    mem, ?_, ?_⟩
  · have h := countP_split (enum.map (·.2)) (fun _ => true) (·.included)
    simp only [List.countP_true, Bool.true_and, List.length_map] at h
    rw [hc.nIncluded, hc.nNotIncluded, Analyzer2.newAnalyzer2_nUniqueTransactions,
      ← henum.length_eq, h]
  · exact (Analyzer2.newAnalyzer2_nUniqueTransactions R txs enum).trans (List.length_map _ _).symm
  · exact hc.nIncluded.trans (hp.countP_eq _)
  · rw [perSource, onChain, notOnChain, countP_split _ _ (·.included)]
    simp
  · exact hc.nExclusiveOrderflow.trans (hp.countP_eq _)
  · rw [hc.nExclusiveOrderflow, hc.includedCnt, hc.notIncludedCnt,
      countP_split _ _ (·.included)]
    simp
  · exact hc.total.symm
  · rw [Analyzer2.newAnalyzer2_sources]
    exact sortStrings_sorted (((R.range_perm _).map _).nodup_iff.mpr (AList.keys_nodup _))
  · simp only [sourceRows, List.mem_map]
    rintro _ ⟨s, hs, rfl⟩
    obtain ⟨tx, htx, hmem⟩ := (mem s).mp hs
    exact (perSource s).symm ▸ List.countP_pos_iff.mpr ⟨tx, htx, by simpa using hmem⟩
  · simp only [exclusiveRows, List.mem_filterMap, Option.map_eq_some']
    rintro _ ⟨s, -, counts, hl, rfl⟩
    obtain ⟨tx, htx, hsrc⟩ := (hc.mem_exclusive s).mp (AList.lookup_isSome.mp (by simp [hl]))
    have hpos := (hc.exclusive s tx.included).symm ▸
      List.countP_pos_iff.mpr ⟨tx, htx, by simp [hsrc]⟩
    rw [hl, Option.getD_some] at hpos
    have hle : counts.get tx.included ≤ counts.get true + counts.get false := by
      cases tx.included <;> omega
    show 0 < counts.get true + counts.get false
    omega

def analyzerTxs : EntryMap :=
  ⟨[⟨lit "0x01", { tieEntry (lit "0x01") with
      timestamp := Int64.ofNat 5 (by decide), sources := [lit "a", lit "b"],
      includedAtBlockHeight := Int64.ofNat 1 (by decide) }⟩,
    ⟨lit "0x02", { tieEntry (lit "0x02") with
      timestamp := Int64.ofNat 3 (by decide), sources := [lit "a"] }⟩],
    by unfold List.NodupKeys; decide⟩

theorem sample_counters :
    (∀ e ∈ analyzerTxs.entries, e.2.sources.Nodup) ∧
    analyzerTxs.entries.Perm analyzerTxs.entries ∧
    (newAnalyzer2 MapRange.stored analyzerTxs analyzerTxs.entries).Consistent
      (analyzerTxs.entries.map (·.2)) :=
  ⟨by decide, .refl _,
    newAnalyzer2_counters MapRange.stored analyzerTxs (by decide) _ (.refl _)⟩

/-! ## The exclusive table and the line above it -/

section ExclusiveTable

variable (R : MapRange Bytes fun _ => Nat) (txs : EntryMap)
  (enum : List (Sigma fun _ : Bytes => TxSummaryEntry))

theorem mem_newAnalyzer2_sources (s : Bytes) :
    s ∈ (newAnalyzer2 R txs enum).sources ↔ ∃ tx ∈ enum.map (·.2), s ∈ tx.sources := by
  rw [Analyzer2.newAnalyzer2_sources, (sortStrings_perm _).mem_iff,
    ((R.range_perm _).map _).mem_iff]
  exact AList.mem_keys.trans ((Analyzer2.newAnalyzer2_counted R txs enum).mem_perSource s)

theorem nodup_newAnalyzer2_sources : (newAnalyzer2 R txs enum).sources.Nodup := by
  rw [Analyzer2.newAnalyzer2_sources, (sortStrings_perm _).nodup_iff]
  exact ((R.range_perm _).map _).nodup_iff.mpr (AList.keys_nodup _)

theorem sum_countP_only_source {txns : List TxSummaryEntry} {L : List Bytes} (hL : L.Nodup)
    (hcover : ∀ tx ∈ txns, ∀ s, tx.sources = [s] → s ∈ L) (q : TxSummaryEntry → Prop)
    [DecidablePred q] :
    (L.map fun s => txns.countP fun tx => tx.sources = [s] ∧ q tx).sum =
      txns.countP fun tx => tx.sources.length = 1 ∧ q tx := by
  induction txns with
  | nil => simp
  | cons tx txns ih =>
    simp only [List.countP_cons, List.sum_map_add, ih fun t ht => hcover t (.tail _ ht)]
    congr 1
    by_cases h : ∃ s₀, tx.sources = [s₀] ∧ q tx
    · obtain ⟨s₀, hs₀, hq⟩ := h
      rw [List.sum_map_eq_nsmul_single s₀ _ fun s hs _ => by simp [hs₀, Ne.symm hs],
        List.count_eq_one_of_mem hL (hcover tx (.head _) s₀ hs₀)]
      simp [hs₀, hq]
    · push_neg at h
      have hz : ∀ s, ¬(tx.sources = [s] ∧ q tx) := fun s ⟨hs, hq⟩ => h s hs hq
      have hlen : ¬(tx.sources.length = 1 ∧ q tx) := fun ⟨hl, hq⟩ =>
        let ⟨s₀, hs₀⟩ := List.length_eq_one.mp hl
        h s₀ hs₀ hq
      simp [hlen, hz]

theorem sum_exclusiveRows (a : Analyzer2) (col : Nat × Nat × Nat → Nat)
    (hcol : col (0, 0, 0) = 0) :
    ((exclusiveRows a).map fun row => col row.2).sum =
      (a.sources.map fun s =>
        col (((a.nTxExclusiveIncluded.lookup s).getD ∅).get true +
          ((a.nTxExclusiveIncluded.lookup s).getD ∅).get false,
          ((a.nTxExclusiveIncluded.lookup s).getD ∅).get true,
          ((a.nTxExclusiveIncluded.lookup s).getD ∅).get false)).sum := by
  unfold exclusiveRows
  induction a.sources with
  | nil => rfl
  | cons s l ih =>
    cases h : a.nTxExclusiveIncluded.lookup s with
    | none =>
      simp only [List.filterMap_cons, h, Option.map_none', ih, List.map_cons, List.sum_cons,
        Option.getD_none, Counter.get_empty, Nat.add_zero, hcol, Nat.zero_add]
    | some c =>
      simp only [List.filterMap_cons, h, Option.map_some', ih, List.map_cons, List.sum_cons,
        Option.getD_some]

theorem mem_exclusiveRows (a : Analyzer2) (s : Bytes) :
    s ∈ (exclusiveRows a).map (·.1) ↔ s ∈ a.sources ∧ s ∈ a.nTxExclusiveIncluded := by
  simp only [exclusiveRows, List.mem_map, List.mem_filterMap, Option.map_eq_some']
  constructor
  · rintro ⟨_, ⟨src, hsrc, c, hc, rfl⟩, rfl⟩
    exact ⟨hsrc, AList.lookup_isSome.mp (by rw [hc]; rfl)⟩
  · rintro ⟨hs, hm⟩
    obtain ⟨c, hc⟩ := Option.isSome_iff_exists.mp (AList.lookup_isSome.mpr hm)
    exact ⟨_, ⟨s, hs, c, hc, rfl⟩, rfl⟩

end ExclusiveTable

/-- `Sprint`'s exclusive table agrees with the line printed above it, whatever order `init`
visits the transactions in: it has a row for a source exactly when that source is the only
source of some transaction, and its columns add up to `nExclusiveOrderflow`,
`nTxExclusiveIncludedCnt` and `nTxExclusiveNotIncludedCnt`. -/
theorem exclusiveRows_match_header (R : MapRange Bytes fun _ => Nat) (txs : EntryMap)
    (enum : List (Sigma fun _ : Bytes => TxSummaryEntry)) (henum : enum.Perm txs.entries) :
    let a := newAnalyzer2 R txs enum
    (∀ s, s ∈ (exclusiveRows a).map (·.1) ↔ ∃ e ∈ txs.entries, e.2.sources = [s]) ∧
    ((exclusiveRows a).map (·.2.1)).sum = a.nExclusiveOrderflow ∧
    ((exclusiveRows a).map (·.2.2.1)).sum = a.nTxExclusiveIncludedCnt ∧
    ((exclusiveRows a).map (·.2.2.2)).sum = a.nTxExclusiveNotIncludedCnt := by
  intro a
  have hc := Analyzer2.newAnalyzer2_counted R txs enum
  have hcover : ∀ tx ∈ enum.map (·.2), ∀ s, tx.sources = [s] → s ∈ a.sources :=
    fun tx htx s hs => (mem_newAnalyzer2_sources R txs enum s).mpr ⟨tx, htx, hs ▸ .head _⟩
  have hcol : ∀ b, (a.sources.map fun s => ((a.nTxExclusiveIncluded.lookup s).getD ∅).get b).sum =
      (enum.map (·.2)).countP fun tx => tx.sources.length = 1 ∧ tx.included = b := fun b => by
    simp only [hc.exclusive]
    exact sum_countP_only_source (nodup_newAnalyzer2_sources R txs enum) hcover _
  have hinc : ((exclusiveRows a).map (·.2.2.1)).sum = a.nTxExclusiveIncludedCnt :=
    (sum_exclusiveRows a (·.2.1) rfl).trans ((hcol true).trans hc.includedCnt.symm)
  have hnot : ((exclusiveRows a).map (·.2.2.2)).sum = a.nTxExclusiveNotIncludedCnt := by
    rw [sum_exclusiveRows a (·.2.2) rfl, hcol false, hc.notIncludedCnt]
    simp
  refine ⟨fun s => ?_, ?_, hinc, hnot⟩
  · rw [mem_exclusiveRows, hc.mem_exclusive s]
    constructor
    · rintro ⟨-, tx, htx, hs⟩
      obtain ⟨e, he, rfl⟩ := List.mem_map.mp htx
      exact ⟨e, henum.subset he, hs⟩
    · rintro ⟨e, he, hs⟩
      have htx : e.2 ∈ enum.map (·.2) := List.mem_map_of_mem _ (henum.symm.subset he)
      exact ⟨hcover _ htx s hs, e.2, htx, hs⟩
  · rw [hc.nExclusiveOrderflow, countP_split _ _ (·.included)]
    refine (sum_exclusiveRows a (·.1) rfl).trans ?_
    dsimp only
    rw [List.sum_map_add, hcol true, hcol false]
    simp

theorem sample_exclusive_table :
    analyzerTxs.entries.Perm analyzerTxs.entries ∧
    let a := newAnalyzer2 MapRange.stored analyzerTxs analyzerTxs.entries
    (∀ s, s ∈ (exclusiveRows a).map (·.1) ↔ ∃ e ∈ analyzerTxs.entries, e.2.sources = [s]) ∧
    ((exclusiveRows a).map (·.2.1)).sum = a.nExclusiveOrderflow ∧
    ((exclusiveRows a).map (·.2.2.1)).sum = a.nTxExclusiveIncludedCnt ∧
    ((exclusiveRows a).map (·.2.2.2)).sum = a.nTxExclusiveNotIncludedCnt :=
  ⟨.refl _, exclusiveRows_match_header MapRange.stored analyzerTxs _ (.refl _)⟩

/-! ## First and last timestamp -/

section Timestamps

open Analyzer2

theorem min?_eq_of_perm {l₁ l₂ : List Int} (h : l₁.Perm l₂) : l₁.min? = l₂.min? := by
  induction h with
  | nil => rfl
  | cons x _ ih => rw [List.min?_cons, List.min?_cons, ih]
  | swap x y l =>
    simp only [List.min?_cons]
    cases l.min? <;> simp only [Option.elim, min_comm, min_left_comm]
  | trans _ _ ih₁ ih₂ => exact ih₁.trans ih₂

theorem max?_eq_of_perm {l₁ l₂ : List Int} (h : l₁.Perm l₂) : l₁.max? = l₂.max? := by
  induction h with
  | nil => rfl
  | cons x _ ih => rw [List.max?_cons, List.max?_cons, ih]
  | swap x y l =>
    simp only [List.max?_cons]
    cases l.max? <;> simp only [Option.elim, max_comm, max_left_comm]
  | trans _ _ ih₁ ih₂ => exact ih₁.trans ih₂

theorem max?_eq_some_iff_int {l : List Int} {m : Int} :
    l.max? = some m ↔ m ∈ l ∧ ∀ x ∈ l, x ≤ m :=
  haveI : Std.Antisymm (α := Int) (· ≤ ·) := ⟨Int.le_antisymm⟩
  List.max?_eq_some_iff le_refl max_choice fun _ _ _ => max_le_iff

theorem keepFirst_eq_or (c t : Int64) : keepFirst c t = t ∨ keepFirst c t = c := by
  unfold keepFirst; split <;> simp

theorem keepLast_val (c : Int64) {t : Int64} (ht : 0 ≤ t.val) :
    (keepLast c t).val = max c.val t.val := by
  unfold keepLast
  split <;> simp_all only [gt_iff_lt, Int64.lt_def, not_or] <;> omega

theorem foldl_keepLast_val (ts : List Int64) (c : Int64) (hts : ∀ t ∈ ts, 0 ≤ t.val) :
    (ts.foldl keepLast c).val = (ts.map (·.val)).foldl max c.val := by
  induction ts generalizing c with
  | nil => rfl
  | cons t ts ih =>
    rw [List.foldl_cons, ih _ fun t h => hts t (.tail _ h), keepLast_val c (hts t (.head _))]
    rfl

def sinceLastZero (ts : List Int) : List Int := ts.reverse.takeWhile (· ≠ 0)

theorem sinceLastZero_eq_reverse {ts : List Int} (hz : ∀ t ∈ ts, t ≠ 0) :
    sinceLastZero ts = ts.reverse :=
  List.takeWhile_eq_self_iff.mpr fun x hx => by simpa using hz x (List.mem_reverse.mp hx)

theorem getD_min?_sinceLastZero_mem {ts : List Int} (hts : ts ≠ []) :
    (sinceLastZero ts).min?.getD 0 ∈ ts := by
  cases hW : (sinceLastZero ts).min? with
  | some w =>
    exact List.mem_reverse.mp ((List.takeWhile_sublist _).subset (List.min?_mem min_choice hW))
  | none =>
    obtain ⟨x, rest, hx⟩ := List.exists_cons_of_ne_nil (List.reverse_eq_nil_iff.not.mpr hts)
    have h0 : x = 0 := by
      have := List.min?_eq_none_iff.mp hW
      rw [sinceLastZero, hx, List.takeWhile_cons] at this
      simpa using this
    exact List.mem_reverse.mp (hx ▸ h0 ▸ List.mem_cons_self x rest)

theorem foldr_keepFirst_nonneg (r : List Int64) (hr : ∀ t ∈ r, 0 ≤ t.val) :
    0 ≤ (r.foldr (fun t c => keepFirst c t) Int64.zero).val := by
  induction r with
  | nil => exact le_refl 0
  | cons u r ih =>
    rcases keepFirst_eq_or (r.foldr (fun t c => keepFirst c t) Int64.zero) u with h | h <;>
      rw [List.foldr_cons, h]
    · exact hr u (.head _)
    · exact ih fun x hx => hr x (.tail _ hx)

theorem foldr_keepFirst_val (r : List Int64) (hr : ∀ t ∈ r, 0 ≤ t.val) :
    (r.foldr (fun t c => keepFirst c t) Int64.zero).val =
      ((r.map (·.val)).takeWhile (· ≠ 0)).min?.getD 0 := by
  induction r with
  | nil => rfl
  | cons t r ih =>
    have hc := foldr_keepFirst_nonneg r fun x hx => hr x (.tail _ hx)
    have ih := ih fun x hx => hr x (.tail _ hx)
    have ht := hr t (.head _)
    simp only [List.foldr_cons, List.map_cons, List.takeWhile_cons]
    set c := r.foldr (fun t c => keepFirst c t) Int64.zero
    by_cases h0 : t.val = 0
    · rw [if_neg (by simp [h0]), List.min?_nil, Option.getD_none]
      have hk : keepFirst c t = t := by
        unfold keepFirst; rw [if_pos]; rw [Int64.lt_def]; omega
      rw [hk, h0]
    · rw [if_pos (by simp [h0]), List.min?_cons]
      cases hm : ((r.map (·.val)).takeWhile (· ≠ 0)).min? with
      | none =>
        rw [hm, Option.getD_none] at ih
        simp [keepFirst, ih]
      | some w =>
        rw [hm, Option.getD_some] at ih
        have hw : w ≠ 0 := by
          simpa using List.mem_takeWhile_imp (List.min?_mem min_choice hm)
        show (keepFirst c t).val = min t.val w
        rw [← ih]
        unfold keepFirst
        by_cases hlt : t.val < c.val
        · rw [if_pos (Or.inr (Int64.lt_def.mpr hlt))]; exact (min_eq_left hlt.le).symm
        · rw [if_neg (by rw [Int64.lt_def]; omega)]; exact (min_eq_right (by omega)).symm

theorem newAnalyzer2_timestampFirst (R : MapRange Bytes fun _ => Nat) (txs : EntryMap)
    (enum : List (Sigma fun _ : Bytes => TxSummaryEntry)) :
    (newAnalyzer2 R txs enum).timestampFirst =
      (enum.map (·.2.timestamp)).foldl keepFirst Int64.zero := by
  show (List.foldl initStep _ (enum.map (·.2))).timestampFirst = _
  rw [← List.foldl_hom timestampFirst _ (fun c tx => keepFirst c tx.timestamp) _ _
    fun _ _ => initStep_timestampFirst.symm, List.foldl_map, List.foldl_map]
  rfl

theorem newAnalyzer2_timestampLast (R : MapRange Bytes fun _ => Nat) (txs : EntryMap)
    (enum : List (Sigma fun _ : Bytes => TxSummaryEntry)) :
    (newAnalyzer2 R txs enum).timestampLast =
      (enum.map (·.2.timestamp)).foldl keepLast Int64.zero := by
  show (List.foldl initStep _ (enum.map (·.2))).timestampLast = _
  rw [← List.foldl_hom timestampLast _ (fun c tx => keepLast c tx.timestamp) _ _
    fun _ _ => initStep_timestampLast.symm, List.foldl_map, List.foldl_map]
  rfl

section Nonneg

variable (R : MapRange Bytes fun _ => Nat) (txs : EntryMap)
  (enum : List (Sigma fun _ : Bytes => TxSummaryEntry)) (hnn : ∀ e ∈ enum, 0 ≤ e.2.timestamp.val)
include hnn

theorem timestamp_nonneg_of_mem : ∀ t ∈ enum.map (·.2.timestamp), 0 ≤ t.val := fun t ht => by
  obtain ⟨e, he, rfl⟩ := List.mem_map.mp ht
  exact hnn e he

theorem newAnalyzer2_timestampLast_val :
    (newAnalyzer2 R txs enum).timestampLast.val = (enum.map (·.2.timestamp.val)).foldl max 0 := by
  rw [newAnalyzer2_timestampLast, foldl_keepLast_val _ _ (timestamp_nonneg_of_mem enum hnn),
    List.map_map]
  rfl

theorem newAnalyzer2_timestampFirst_val :
    (newAnalyzer2 R txs enum).timestampFirst.val =
      (sinceLastZero (enum.map (·.2.timestamp.val))).min?.getD 0 := by
  rw [newAnalyzer2_timestampFirst, ← List.reverse_reverse (enum.map (·.2.timestamp)),
    List.foldl_reverse, foldr_keepFirst_val _ fun t ht =>
      timestamp_nonneg_of_mem enum hnn t (List.mem_reverse.mp ht),
    sinceLastZero, List.map_reverse, List.map_map]
  rfl

end Nonneg

def zeroThenOneTxs : EntryMap :=
  ⟨[⟨lit "0x01", tieEntry (lit "0x01")⟩,
    ⟨lit "0x02", { tieEntry (lit "0x02") with timestamp := Int64.ofNat 1 (by decide) }⟩],
    by unfold List.NodupKeys; decide⟩

theorem timestampFirst_misses_zero :
    ¬ ∀ (R : MapRange Bytes fun _ => Nat) (txs : EntryMap)
        (enum : List (Sigma fun _ : Bytes => TxSummaryEntry)),
      txs.entries ≠ [] → (∀ e ∈ txs.entries, 0 ≤ e.2.timestamp.val) → enum.Perm txs.entries →
        (txs.entries.map (·.2.timestamp.val)).min? =
            some (newAnalyzer2 R txs enum).timestampFirst.val ∧
          (txs.entries.map (·.2.timestamp.val)).max? =
            some (newAnalyzer2 R txs enum).timestampLast.val := by
  intro h
  have hmin := (h MapRange.stored zeroThenOneTxs zeroThenOneTxs.entries (by decide) (by decide)
    (.refl _)).1
  rw [newAnalyzer2_timestampFirst] at hmin
  exact absurd hmin (by decide)

/-- Whatever order the loop visits the transactions in, with non-negative timestamps:
`timestampLast` is the greatest timestamp. `timestampFirst` is the least of the timestamps
visited after the last zero one, and 0 when a zero one is visited last, because 0 also means
that nothing is noted yet; it is the least timestamp when none is zero, and in every case one
of the timestamps. So `timeFirst` is not after `timeLast`, and `duration` is not negative. -/
theorem newAnalyzer2_time_range (R : MapRange Bytes fun _ => Nat) (txs : EntryMap)
    (hne : txs.entries ≠ []) (hnonneg : ∀ e ∈ txs.entries, 0 ≤ e.2.timestamp.val)
    (enum : List (Sigma fun _ : Bytes => TxSummaryEntry)) (henum : enum.Perm txs.entries) :
    let a := newAnalyzer2 R txs enum
    let ts := txs.entries.map (·.2.timestamp.val)
    ts.max? = some a.timestampLast.val ∧
    a.timestampFirst.val = (sinceLastZero (enum.map (·.2.timestamp.val))).min?.getD 0 ∧
    ((∀ t ∈ ts, t ≠ 0) → ts.min? = some a.timestampFirst.val) ∧
    a.timestampFirst.val ∈ ts ∧
    a.timeFirst.unixSec ≤ a.timeLast.unixSec ∧ 0 ≤ a.duration.val := by
  intro a ts
  set E := enum.map (·.2.timestamp.val)
  have hE : E.Perm ts := henum.map _
  have hnn : ∀ e ∈ enum, 0 ≤ e.2.timestamp.val := fun e he => hnonneg e (henum.subset he)
  have hts : ∀ t ∈ ts, 0 ≤ t := fun t ht => by
    obtain ⟨e, he, rfl⟩ := List.mem_map.mp ht; exact hnonneg e he
  have hne' : ts ≠ [] := by simpa [ts] using hne
  have hEne : E ≠ [] := fun h => hne' (List.nil_perm.mp (h ▸ hE))
  obtain ⟨m, hm⟩ := Option.isSome_iff_exists.mp (List.isSome_max?_of_mem (List.getLast_mem hne'))
  have hlast : a.timestampLast.val = m := by
    have h : a.timestampLast.val = E.foldl max 0 := newAnalyzer2_timestampLast_val R txs enum hnn
    rw [h, List.foldl_max, max?_eq_of_perm hE, hm, Option.getD_some]
    exact max_eq_right (hts m (max?_eq_some_iff_int.mp hm).1)
  have hfirst : a.timestampFirst.val = (sinceLastZero E).min?.getD 0 :=
    newAnalyzer2_timestampFirst_val R txs enum hnn
  have hmem : a.timestampFirst.val ∈ ts := hfirst ▸ hE.subset (getD_min?_sinceLastZero_mem hEne)
  have hle : a.timestampFirst.val ≤ a.timestampLast.val :=
    hlast ▸ (max?_eq_some_iff_int.mp hm).2 _ hmem
  have hsec : a.timeFirst.unixSec ≤ a.timeLast.unixSec := Time.unix_tdiv_le (hts _ hmem) hle
  refine ⟨hlast ▸ hm, hfirst, fun hz => ?_, hmem, hsec, Time.sub_nonneg hsec⟩
  obtain ⟨w, hw⟩ := Option.isSome_iff_exists.mp (List.isSome_min?_of_mem (List.getLast_mem hne'))
  rw [hfirst, sinceLastZero_eq_reverse fun x hx => hz x (hE.subset hx),
    min?_eq_of_perm ((List.reverse_perm E).trans hE), hw, Option.getD_some]

theorem sample_time_range :
    zeroThenOneTxs.entries ≠ [] ∧ (∀ e ∈ zeroThenOneTxs.entries, 0 ≤ e.2.timestamp.val) ∧
    zeroThenOneTxs.entries.Perm zeroThenOneTxs.entries ∧
    let a := newAnalyzer2 MapRange.stored zeroThenOneTxs zeroThenOneTxs.entries
    let ts := zeroThenOneTxs.entries.map (·.2.timestamp.val)
    ts.max? = some a.timestampLast.val ∧
    a.timestampFirst.val =
      (sinceLastZero (zeroThenOneTxs.entries.map (·.2.timestamp.val))).min?.getD 0 ∧
    ((∀ t ∈ ts, t ≠ 0) → ts.min? = some a.timestampFirst.val) ∧
    a.timestampFirst.val ∈ ts ∧
    a.timeFirst.unixSec ≤ a.timeLast.unixSec ∧ 0 ≤ a.duration.val :=
  ⟨by decide, by decide, .refl _,
    newAnalyzer2_time_range MapRange.stored zeroThenOneTxs (by decide) (by decide) _ (.refl _)⟩

end Timestamps

end MempoolArchiver
