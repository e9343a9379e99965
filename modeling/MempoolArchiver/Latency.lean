import MempoolArchiver.Analyzer

/-!
# `latencyComp`

`latencyComp(src, ref)` compares when two sources saw the included transactions that both
saw, in three loops. The first notes the lowercased hash of every included transaction that
lists both sources and does not have exactly one source. The second goes over the sourcelog
and notes, for each noted hash, the first time each of the two sources saw it. The third
takes, for each noted hash, how much later `ref` saw it than `src`: a positive difference goes
to `srcH`, and the negation of a negative one to `refH`.

The HDR histograms are the library's; `LatencyComp` keeps the values passed to their
`RecordValue`, in call order. `HasSource` is not among the sources: it is taken to scan
`Sources` for an equal string.
-/

namespace MempoolArchiver

/-- `tx.HasSource(src)`: whether some element of `tx.Sources` is `src`. -/
def TxSummaryEntry.hasSource (tx : TxSummaryEntry) (src : Bytes) : Bool :=
  tx.sources.any (· == src)

theorem TxSummaryEntry.hasSource_iff (tx : TxSummaryEntry) (src : Bytes) :
    tx.hasSource src ↔ src ∈ tx.sources := by
  simp [hasSource]

/-- `m[k]` on a `map[string]int64`: zero for a key the map lacks. -/
def SourceTimes.get (m : SourceTimes) (k : Bytes) : Int64 := (m.lookup k).getD Int64.zero

/-- The `int64` that two's-complement arithmetic leaves of `v`. -/
def Int64.wrap (v : Int) : Int64 := ⟨(v + 2 ^ 63) % 2 ^ 64 - 2 ^ 63, by omega, by omega⟩

/-- `a - b` on `int64`. -/
def Int64.sub (a b : Int64) : Int64 := Int64.wrap (a.val - b.val)

/-- `-a` on `int64`. -/
def Int64.neg (a : Int64) : Int64 := Int64.wrap (-a.val)

theorem Int64.wrap_val {v : Int} (h₁ : -2 ^ 63 ≤ v) (h₂ : v < 2 ^ 63) : (Int64.wrap v).val = v := by
  simp only [Int64.wrap]
  omega

/-- What `latencyComp` returns: the values passed to `srcH.RecordValue` and to
`refH.RecordValue`, in call order, and `totalSeenByBoth`. -/
structure LatencyComp where
  srcH : List Int64
  refH : List Int64
  totalSeenByBoth : Nat

namespace Analyzer2

variable (lib : Lib) (src ref : Bytes)

/-- The first loop's body: a transaction that does not have exactly one source, is included,
and lists both sources puts its lowercased hash in `txHashes`, with an empty map. -/
def noteShared (txHashes : Sourcelog) (e : Sigma fun _ : Bytes => TxSummaryEntry) : Sourcelog :=
  let txHashLower := toLower lib.unicodeLower e.1
  if e.2.sources.length = 1 then txHashes
  else if e.2.includedAtBlockHeight.val = 0 then txHashes
  else if !e.2.hasSource src || !e.2.hasSource ref then txHashes
  else txHashes.insert txHashLower ∅

/-- The second loop's two updates of a noted hash's map, from a sourcelog entry that records
`src` at `tSrc` and `ref` at `tRef`. -/
def noteFirst (seen : SourceTimes) (tSrc tRef : Int64) : SourceTimes :=
  let seen : SourceTimes :=
    if (seen.get src).val = 0 ∨ tSrc < seen.get src then seen.insert src tSrc else seen
  if (seen.get ref).val = 0 ∨ tRef < seen.get ref then seen.insert ref tRef else seen

/-- The second loop's body, at one sourcelog entry. -/
def firstSeenStep (txHashes : Sourcelog) (e : Sigma fun _ : Bytes => SourceTimes) : Sourcelog :=
  let txHashLower := toLower lib.unicodeLower e.1
  match txHashes.lookup txHashLower, e.2.lookup src, e.2.lookup ref with
  | some seen, some tSrc, some tRef => txHashes.insert txHashLower (noteFirst src ref seen tSrc tRef)
  | _, _, _ => txHashes

/-- The third loop's body, at one noted hash: the values recorded so far in `srcH` and
`refH`. -/
def bucketStep (hs : List Int64 × List Int64) (e : Sigma fun _ : Bytes => SourceTimes) :
    List Int64 × List Int64 :=
  let srcTS := e.2.get src
  let localTS := e.2.get ref
  let diff := localTS.sub srcTS
  if diff.val = 0 then hs
  else if diff.val > 0 then (hs.1 ++ [diff], hs.2)
  else (hs.1, hs.2 ++ [diff.neg])

/-- `a.latencyComp(src, ref)`, visiting `opts.Transactions` in the order `txOrder`,
`opts.Sourelog` in the order `logOrder`, and the noted hashes in the order `R` picks. -/
def latencyComp (R : MapRange Bytes fun _ => SourceTimes)
    (txOrder : List (Sigma fun _ : Bytes => TxSummaryEntry))
    (logOrder : List (Sigma fun _ : Bytes => SourceTimes)) : LatencyComp :=
  let txHashes := txOrder.foldl (noteShared lib src ref) ∅
  let txHashes := logOrder.foldl (firstSeenStep lib src ref) txHashes
  let hs := (R.range txHashes).foldl (bucketStep src ref) ([], [])
  { srcH := hs.1, refH := hs.2, totalSeenByBoth := txHashes.entries.length }

end Analyzer2

/-! ## What the comparison is meant to compute -/

/-- The transactions the comparison of `src` with `ref` counts: included, listing both
sources, and not having exactly one source. -/
def comparable (src ref : Bytes) (tx : TxSummaryEntry) : Prop :=
  tx.sources.length ≠ 1 ∧ tx.includedAtBlockHeight.val ≠ 0 ∧ src ∈ tx.sources ∧ ref ∈ tx.sources

instance (src ref : Bytes) (tx : TxSummaryEntry) : Decidable (comparable src ref tx) :=
  inferInstanceAs (Decidable (_ ∧ _ ∧ _ ∧ _))

/-- The sourcelog entries that say when `src` and `ref` saw the transaction with lowercased
hash `h`: those under a key that lowers to `h` that record both sources. -/
def recordsBoth (lib : Lib) (src ref h : Bytes) (e : Sigma fun _ : Bytes => SourceTimes) : Prop :=
  toLower lib.unicodeLower e.1 = h ∧ src ∈ e.2 ∧ ref ∈ e.2

instance (lib : Lib) (src ref h : Bytes) (e : Sigma fun _ : Bytes => SourceTimes) :
    Decidable (recordsBoth lib src ref h e) :=
  inferInstanceAs (Decidable (_ ∧ _ ∧ _))

def sharedHashes (lib : Lib) (txs : EntryMap) (src ref : Bytes) : Finset Bytes :=
  ((txs.entries.filter fun e => comparable src ref e.2).map
    fun e => toLower lib.unicodeLower e.1).toFinset

/-- When `x` first saw the transaction with lowercased hash `h`: the least time the sourcelog
entries that record both sources give for `x`, and 0 when there is none. -/
def firstSeen (lib : Lib) (sourelog : Sourcelog) (src ref h x : Bytes) : Int :=
  ((sourelog.entries.filter (recordsBoth lib src ref h)).map fun e => (e.2.get x).val).min?.getD 0

def latencyDelta (lib : Lib) (sourelog : Sourcelog) (src ref h : Bytes) : Int :=
  firstSeen lib sourelog src ref h ref - firstSeen lib sourelog src ref h src

/-! ## The three loops -/

namespace Analyzer2

variable {lib : Lib} {src ref : Bytes}

theorem noteShared_eq (txHashes : Sourcelog) (e : Sigma fun _ : Bytes => TxSummaryEntry) :
    noteShared lib src ref txHashes e =
      if comparable src ref e.2 then txHashes.insert (toLower lib.unicodeLower e.1) ∅
      else txHashes := by
  simp only [noteShared, comparable, ← TxSummaryEntry.hasSource_iff]
  split_ifs <;> simp_all

theorem lookup_foldl_noteShared (l : List (Sigma fun _ : Bytes => TxSummaryEntry))
    (acc : Sourcelog) (h : Bytes) :
    (l.foldl (noteShared lib src ref) acc).lookup h =
      if ∃ e ∈ l, comparable src ref e.2 ∧ toLower lib.unicodeLower e.1 = h then some ∅
      else acc.lookup h := by
  induction l generalizing acc with
  | nil => exact (if_neg fun ⟨_, he, _⟩ => List.not_mem_nil _ he).symm
  | cons e l ih =>
    rw [List.foldl_cons, ih, noteShared_eq]
    by_cases hl : ∃ e' ∈ l, comparable src ref e'.2 ∧ toLower lib.unicodeLower e'.1 = h
    · rw [if_pos hl, if_pos (let ⟨e', he', hc⟩ := hl; ⟨e', .tail _ he', hc⟩)]
    · rw [if_neg hl]
      by_cases he : comparable src ref e.2 ∧ toLower lib.unicodeLower e.1 = h
      · have hex : ∃ e' ∈ e :: l, comparable src ref e'.2 ∧ toLower lib.unicodeLower e'.1 = h :=
          ⟨e, .head _, he⟩
        rw [if_pos he.1, if_pos hex, he.2, AList.lookup_insert]
      · have hn : ¬∃ e' ∈ e :: l, comparable src ref e'.2 ∧ toLower lib.unicodeLower e'.1 = h := by
          rintro ⟨e', he' | ⟨_, he'⟩, hc⟩
          exacts [he hc, hl ⟨e', he', hc⟩]
        rw [if_neg hn]
        split_ifs with hc
        · exact AList.lookup_insert_ne fun h' => he ⟨hc, h'.symm⟩
        · rfl

theorem keepFirst_idem (c t : Int64) : keepFirst (keepFirst c t) t = keepFirst c t := by
  unfold keepFirst
  split_ifs <;> simp_all [Int64.lt_def]

theorem get_ite_insert (m : SourceTimes) (k y : Bytes) (v : Int64) :
    SourceTimes.get (if (m.get k).val = 0 ∨ v < m.get k then m.insert k v else m) y =
      if y = k then keepFirst (m.get k) v else m.get y := by
  by_cases hy : y = k
  · subst hy
    rw [if_pos rfl]
    unfold keepFirst
    split_ifs <;> simp [SourceTimes.get, AList.lookup_insert]
  · split_ifs <;> simp [SourceTimes.get, AList.lookup_insert_ne hy]

theorem get_noteFirst (seen : SourceTimes) (t : Bytes → Int64) {x : Bytes}
    (hx : x = src ∨ x = ref) :
    (noteFirst src ref seen (t src) (t ref)).get x = keepFirst (seen.get x) (t x) := by
  unfold noteFirst
  rw [get_ite_insert _ ref x (t ref), get_ite_insert seen src ref (t src),
    get_ite_insert seen src x (t src)]
  rcases hx with rfl | rfl
  · by_cases h : x = ref
    · subst h; simp [keepFirst_idem]
    · simp [h]
  · by_cases h : x = src
    · subst h; simp [keepFirst_idem]
    · simp [h]

theorem lookup_firstSeenStep (acc : Sourcelog) (e : Sigma fun _ : Bytes => SourceTimes)
    (h : Bytes) :
    (firstSeenStep lib src ref acc e).lookup h = (acc.lookup h).map fun seen =>
      if recordsBoth lib src ref h e then noteFirst src ref seen (e.2.get src) (e.2.get ref)
      else seen := by
  have hid : ∀ o : Option SourceTimes, ¬recordsBoth lib src ref h e →
      o = o.map fun seen => if recordsBoth lib src ref h e then
        noteFirst src ref seen (e.2.get src) (e.2.get ref) else seen := fun o hr => by
    cases o <;> simp [hr]
  simp only [firstSeenStep]
  rcases hl : acc.lookup (toLower lib.unicodeLower e.1) with _ | seen
  · by_cases hr : recordsBoth lib src ref h e
    · rw [hr.1] at hl; simp [hl]
    · exact hid _ hr
  rcases hS : e.2.lookup src with _ | tS
  · exact hid _ fun hr => AList.lookup_eq_none.mp hS hr.2.1
  rcases hR : e.2.lookup ref with _ | tR
  · exact hid _ fun hr => AList.lookup_eq_none.mp hR hr.2.2
  by_cases hh : toLower lib.unicodeLower e.1 = h
  · subst hh
    have hr : recordsBoth lib src ref (toLower lib.unicodeLower e.1) e :=
      ⟨rfl, AList.lookup_isSome.mp (by simp [hS]), AList.lookup_isSome.mp (by simp [hR])⟩
    simp [AList.lookup_insert, hl, hr, SourceTimes.get, hS, hR]
  · rw [AList.lookup_insert_ne (Ne.symm hh)]
    exact hid _ fun hr => hh hr.1

theorem lookup_foldl_firstSeenStep (l : List (Sigma fun _ : Bytes => SourceTimes))
    (acc : Sourcelog) (h : Bytes) :
    (l.foldl (firstSeenStep lib src ref) acc).lookup h = (acc.lookup h).map fun seen =>
      (l.filter (recordsBoth lib src ref h)).foldl
        (fun seen e => noteFirst src ref seen (e.2.get src) (e.2.get ref)) seen := by
  induction l generalizing acc with
  | nil => simp
  | cons e l ih =>
    rw [List.foldl_cons, ih, lookup_firstSeenStep, Option.map_map]
    congr 1
    funext seen
    by_cases hr : recordsBoth lib src ref h e <;> simp [hr, List.filter_cons]

theorem get_foldl_noteFirst (l : List (Sigma fun _ : Bytes => SourceTimes)) (seen : SourceTimes)
    {x : Bytes} (hx : x = src ∨ x = ref) :
    (l.foldl (fun seen e => noteFirst src ref seen (e.2.get src) (e.2.get ref)) seen).get x =
      (l.map (·.2.get x)).foldl keepFirst (seen.get x) := by
  rw [List.foldl_map, ← List.foldl_hom (SourceTimes.get · x) _ (fun c e => keepFirst c (e.2.get x))
    _ _ fun seen e => (get_noteFirst seen e.2.get hx).symm]

theorem foldl_keepFirst_of_pos (ts : List Int64) (hts : ∀ t ∈ ts, 0 < t.val) :
    (ts.foldl keepFirst Int64.zero).val = (ts.map (·.val)).min?.getD 0 := by
  conv_lhs => rw [← List.reverse_reverse ts, List.foldl_reverse]
  rw [foldr_keepFirst_val _ fun t ht => (hts t (List.mem_reverse.mp ht)).le,
    List.takeWhile_eq_self_iff.mpr, List.map_reverse, min?_eq_of_perm (List.reverse_perm _)]
  intro t ht
  obtain ⟨u, hu, rfl⟩ := List.mem_map.mp ht
  simpa using (hts u (List.mem_reverse.mp hu)).ne'

theorem get_pos_of_recordsBoth {sourelog : Sourcelog}
    (hpos : ∀ e ∈ sourelog.entries, ∀ t ∈ e.2.entries, 0 < t.2.val)
    {e : Sigma fun _ : Bytes => SourceTimes} (he : e ∈ sourelog.entries) {h : Bytes}
    (hr : recordsBoth lib src ref h e) {x : Bytes} (hx : x = src ∨ x = ref) :
    0 < (e.2.get x).val := by
  have hxe : x ∈ e.2 := by
    rcases hx with rfl | rfl
    exacts [hr.2.1, hr.2.2]
  obtain ⟨v, hv⟩ := Option.isSome_iff_exists.mp (AList.lookup_isSome.mpr hxe)
  rw [SourceTimes.get, hv, Option.getD_some]
  exact hpos e he ⟨x, v⟩ (AList.mem_lookup_iff.mp hv)

theorem firstSeen_nonneg {sourelog : Sourcelog}
    (hpos : ∀ e ∈ sourelog.entries, ∀ t ∈ e.2.entries, 0 < t.2.val) (h : Bytes) {x : Bytes}
    (hx : x = src ∨ x = ref) : 0 ≤ firstSeen lib sourelog src ref h x := by
  unfold firstSeen
  cases hm : ((sourelog.entries.filter (recordsBoth lib src ref h)).map
      fun e => (e.2.get x).val).min? with
  | none => exact le_refl 0
  | some m =>
    obtain ⟨e, he, rfl⟩ := List.mem_map.mp (List.min?_mem min_choice hm)
    obtain ⟨hel, hr⟩ := List.mem_filter.mp he
    exact (get_pos_of_recordsBoth hpos hel (of_decide_eq_true hr) hx).le

theorem get_foldl_firstSeenStep {sourelog : Sourcelog}
    (hpos : ∀ e ∈ sourelog.entries, ∀ t ∈ e.2.entries, 0 < t.2.val)
    {logOrder : List (Sigma fun _ : Bytes => SourceTimes)} (hlog : logOrder.Perm sourelog.entries)
    {acc : Sourcelog} {h : Bytes} {seen : SourceTimes} (hacc : acc.lookup h = some ∅)
    (hseen : (logOrder.foldl (firstSeenStep lib src ref) acc).lookup h = some seen)
    {x : Bytes} (hx : x = src ∨ x = ref) :
    (seen.get x).val = firstSeen lib sourelog src ref h x := by
  rw [lookup_foldl_firstSeenStep, hacc, Option.map_some', Option.some.injEq] at hseen
  subst hseen
  rw [get_foldl_noteFirst _ _ hx, show (∅ : SourceTimes).get x = Int64.zero from rfl,
    foldl_keepFirst_of_pos, firstSeen, List.map_map]
  · exact congrArg (·.getD 0) (min?_eq_of_perm ((hlog.filter _).map _))
  · intro t ht
    obtain ⟨e, he, rfl⟩ := List.mem_map.mp ht
    obtain ⟨hel, hr⟩ := List.mem_filter.mp he
    exact get_pos_of_recordsBoth hpos (hlog.subset hel) (of_decide_eq_true hr) hx

section FirstTwoLoops

variable {txs : EntryMap} {txOrder : List (Sigma fun _ : Bytes => TxSummaryEntry)}
  (htx : txOrder.Perm txs.entries)
include htx

theorem lookup_foldl_noteShared_of_mem {h : Bytes} (hh : h ∈ sharedHashes lib txs src ref) :
    (txOrder.foldl (noteShared lib src ref) ∅).lookup h = some ∅ := by
  obtain ⟨e, he, rfl⟩ := List.mem_map.mp (List.mem_toFinset.mp hh)
  rw [lookup_foldl_noteShared, if_pos ⟨e, htx.symm.subset (List.mem_filter.mp he).1,
    of_decide_eq_true (List.mem_filter.mp he).2, rfl⟩]

theorem keys_foldl_firstSeenStep (logOrder : List (Sigma fun _ : Bytes => SourceTimes)) :
    (logOrder.foldl (firstSeenStep lib src ref)
      (txOrder.foldl (noteShared lib src ref) ∅)).keys.toFinset = sharedHashes lib txs src ref := by
  ext h
  rw [List.mem_toFinset, ← AList.mem_keys, ← AList.lookup_isSome, lookup_foldl_firstSeenStep,
    Option.isSome_map']
  constructor
  · intro hs
    rw [lookup_foldl_noteShared] at hs
    split_ifs at hs with hex
    · obtain ⟨e, he, hc, rfl⟩ := hex
      exact List.mem_toFinset.mpr (List.mem_map.mpr
        ⟨e, List.mem_filter.mpr ⟨htx.subset he, decide_eq_true hc⟩, rfl⟩)
    · exact absurd hs Bool.false_ne_true
  · intro hh
    rw [lookup_foldl_noteShared_of_mem htx hh]
    rfl

theorem entry_foldl_firstSeenStep {sourelog : Sourcelog}
    (hpos : ∀ e ∈ sourelog.entries, ∀ t ∈ e.2.entries, 0 < t.2.val)
    {logOrder : List (Sigma fun _ : Bytes => SourceTimes)} (hlog : logOrder.Perm sourelog.entries)
    {e : Sigma fun _ : Bytes => SourceTimes} (he : e ∈ (logOrder.foldl (firstSeenStep lib src ref)
      (txOrder.foldl (noteShared lib src ref) ∅)).entries) :
    (e.2.get ref).val - (e.2.get src).val = latencyDelta lib sourelog src ref e.1 ∧
      0 ≤ (e.2.get src).val ∧ 0 ≤ (e.2.get ref).val := by
  have hS : e.1 ∈ sharedHashes lib txs src ref :=
    keys_foldl_firstSeenStep htx logOrder ▸ List.mem_toFinset.mpr (List.mem_map_of_mem _ he)
  have hget := fun {x} (hx : x = src ∨ x = ref) => get_foldl_firstSeenStep hpos hlog
    (lookup_foldl_noteShared_of_mem htx hS) (AList.mem_lookup_iff.mpr he) hx
  rw [hget (.inl rfl), hget (.inr rfl)]
  exact ⟨rfl, firstSeen_nonneg hpos _ (.inl rfl), firstSeen_nonneg hpos _ (.inr rfl)⟩

theorem diffs_range_foldl_firstSeenStep {sourelog : Sourcelog}
    (hpos : ∀ e ∈ sourelog.entries, ∀ t ∈ e.2.entries, 0 < t.2.val)
    {logOrder : List (Sigma fun _ : Bytes => SourceTimes)} (hlog : logOrder.Perm sourelog.entries)
    (R : MapRange Bytes fun _ => SourceTimes) :
    (((R.range (logOrder.foldl (firstSeenStep lib src ref)
        (txOrder.foldl (noteShared lib src ref) ∅))).map
      fun e => (e.2.get ref).val - (e.2.get src).val : List Int) : Multiset Int) =
      (sharedHashes lib txs src ref).val.map (latencyDelta lib sourelog src ref) := by
  set T := logOrder.foldl (firstSeenStep lib src ref) (txOrder.foldl (noteShared lib src ref) ∅)
  rw [Multiset.coe_eq_coe.mpr ((R.range_perm T).map _), List.map_congr_left fun e he =>
    (entry_foldl_firstSeenStep htx hpos hlog he).1, ← keys_foldl_firstSeenStep htx logOrder,
    List.toFinset_val, List.dedup_eq_self.mpr T.keys_nodup, Multiset.map_coe, AList.keys,
    List.keys, List.map_map]
  rfl

end FirstTwoLoops

theorem foldl_bucketStep (l : List (Sigma fun _ : Bytes => SourceTimes))
    (hs : List Int64 × List Int64)
    (hl : ∀ e ∈ l, 0 ≤ (e.2.get src).val ∧ 0 ≤ (e.2.get ref).val) :
    (l.foldl (bucketStep src ref) hs).1.map (·.val) = hs.1.map (·.val) ++
        (l.map fun e => (e.2.get ref).val - (e.2.get src).val).filter (0 < ·) ∧
      (l.foldl (bucketStep src ref) hs).2.map (·.val) = hs.2.map (·.val) ++
        ((l.map fun e => (e.2.get ref).val - (e.2.get src).val).filter (· < 0)).map (- ·) := by
  induction l generalizing hs with
  | nil => simp
  | cons e l ih =>
    obtain ⟨h₁, h₂⟩ := ih (bucketStep src ref hs e) fun e' he' => hl e' (.tail _ he')
    rw [List.foldl_cons, h₁, h₂]
    obtain ⟨hs₀, hr₀⟩ := hl e (.head _)
    have hsl := (e.2.get src).lt
    have hrl := (e.2.get ref).lt
    have hd : ((e.2.get ref).sub (e.2.get src)).val = (e.2.get ref).val - (e.2.get src).val :=
      Int64.wrap_val (by omega) (by omega)
    have hn : ((e.2.get ref).sub (e.2.get src)).neg.val =
        -((e.2.get ref).val - (e.2.get src).val) := by
      rw [Int64.neg, hd]; exact Int64.wrap_val (by omega) (by omega)
    unfold bucketStep
    simp only [hd, gt_iff_lt, List.map_cons, List.filter_cons]
    by_cases h0 : (e.2.get ref).val - (e.2.get src).val = 0
    · simp only [h0, if_true, lt_self_iff_false, decide_False, Bool.false_eq_true, if_false,
        and_self]
    · by_cases hpos : 0 < (e.2.get ref).val - (e.2.get src).val
      · have hnn : ¬((e.2.get ref).val - (e.2.get src).val < 0) := by omega
        simp only [h0, hpos, hnn, if_true, if_false, decide_True, decide_False, Bool.false_eq_true,
          List.map_append, List.map_cons, List.map_nil, hd, List.append_assoc,
          List.singleton_append, and_true]
      · have hneg : (e.2.get ref).val - (e.2.get src).val < 0 := by omega
        simp only [h0, hpos, hneg, if_true, if_false, decide_True, decide_False, Bool.false_eq_true,
          List.map_append, List.map_cons, List.map_nil, hn, List.append_assoc,
          List.singleton_append, true_and]

end Analyzer2

/-- For every pair of maps with positive sourcelog times and every order of every loop:
`latencyComp(src, ref)` passes to `srcH.RecordValue` the positive differences `D h` over the
shared hashes `h`, to `refH.RecordValue` the negations of the negative ones, each once for
each hash, and returns the number of shared hashes. -/
theorem latencyComp_histograms (lib : Lib) (txs : EntryMap) (sourelog : Sourcelog)
    (hpos : ∀ e ∈ sourelog.entries, ∀ t ∈ e.2.entries, 0 < t.2.val) (src ref : Bytes)
    (txOrder : List (Sigma fun _ : Bytes => TxSummaryEntry)) (htx : txOrder.Perm txs.entries)
    (logOrder : List (Sigma fun _ : Bytes => SourceTimes)) (hlog : logOrder.Perm sourelog.entries)
    (R : MapRange Bytes fun _ => SourceTimes) :
    let out := Analyzer2.latencyComp lib src ref R txOrder logOrder
    let S := sharedHashes lib txs src ref
    let D := latencyDelta lib sourelog src ref
    ((out.srcH.map (·.val) : List Int) : Multiset Int) = (S.filter (0 < D ·)).val.map D ∧
    ((out.refH.map (·.val) : List Int) : Multiset Int) = (S.filter (D · < 0)).val.map (- D ·) ∧
    out.totalSeenByBoth = S.card := by
  intro out S D
  set T₂ := logOrder.foldl (Analyzer2.firstSeenStep lib src ref)
    (txOrder.foldl (Analyzer2.noteShared lib src ref) ∅)
  have hkeys : T₂.keys.toFinset = S := Analyzer2.keys_foldl_firstSeenStep htx logOrder
  have hval := fun e (he : e ∈ T₂.entries) => Analyzer2.entry_foldl_firstSeenStep htx hpos hlog he
  have hdiffs : (((R.range T₂).map fun e => (e.2.get ref).val - (e.2.get src).val : List Int) :
      Multiset Int) = S.val.map D := by
    rw [Multiset.coe_eq_coe.mpr ((R.range_perm T₂).map _), List.map_congr_left fun e he =>
      (hval e he).1, ← hkeys, List.toFinset_val, List.dedup_eq_self.mpr T₂.keys_nodup,
      Multiset.map_coe, AList.keys, List.keys, List.map_map]
    rfl
  obtain ⟨hsrc, href⟩ := Analyzer2.foldl_bucketStep (R.range T₂) ([], [])
    fun e he => (hval e ((R.range_perm T₂).subset he)).2
  refine ⟨?_, ?_, ?_⟩
  · show ((((R.range T₂).foldl (Analyzer2.bucketStep src ref) ([], [])).1.map
      fun x : Int64 => x.val : List Int) : Multiset Int) = _
    rw [hsrc, List.map_nil, List.nil_append, ← Multiset.filter_coe, hdiffs, Multiset.filter_map,
      Finset.filter_val]
    rfl
  · show ((((R.range T₂).foldl (Analyzer2.bucketStep src ref) ([], [])).2.map
      fun x : Int64 => x.val : List Int) : Multiset Int) = _
    rw [href, List.map_nil, List.nil_append, ← Multiset.map_coe, ← Multiset.filter_coe, hdiffs,
      Multiset.filter_map, Multiset.map_map, Finset.filter_val]
    rfl
  · show T₂.entries.length = S.card
    rw [← hkeys, List.card_toFinset, List.dedup_eq_self.mpr T₂.keys_nodup, AList.keys,
      List.keys, List.length_map]

theorem sample_latency_histograms :
    (∀ e ∈ sampleSourcelog.entries, ∀ t ∈ e.2.entries, 0 < t.2.val) ∧
    analyzerTxs.entries.Perm analyzerTxs.entries ∧
    sampleSourcelog.entries.Perm sampleSourcelog.entries ∧
    let out := Analyzer2.latencyComp sampleLib (lit "a") (lit "b") MapRange.stored
      analyzerTxs.entries sampleSourcelog.entries
    let S := sharedHashes sampleLib analyzerTxs (lit "a") (lit "b")
    let D := latencyDelta sampleLib sampleSourcelog (lit "a") (lit "b")
    ((out.srcH.map (·.val) : List Int) : Multiset Int) = (S.filter (0 < D ·)).val.map D ∧
    ((out.refH.map (·.val) : List Int) : Multiset Int) = (S.filter (D · < 0)).val.map (- D ·) ∧
    out.totalSeenByBoth = S.card :=
  ⟨by decide, .refl _, .refl _, latencyComp_histograms sampleLib analyzerTxs sampleSourcelog
    (by decide) _ _ _ (.refl _) _ (.refl _) MapRange.stored⟩

/-! ## The pair the other way round -/

theorem comparable_comm (src ref : Bytes) (tx : TxSummaryEntry) :
    comparable ref src tx ↔ comparable src ref tx :=
  ⟨fun ⟨h₁, h₂, h₃, h₄⟩ => ⟨h₁, h₂, h₄, h₃⟩, fun ⟨h₁, h₂, h₃, h₄⟩ => ⟨h₁, h₂, h₄, h₃⟩⟩

theorem sharedHashes_comm (lib : Lib) (txs : EntryMap) (src ref : Bytes) :
    sharedHashes lib txs ref src = sharedHashes lib txs src ref := by
  unfold sharedHashes
  rw [List.filter_congr fun e _ => decide_eq_decide.mpr (comparable_comm src ref e.2)]

theorem firstSeen_comm (lib : Lib) (sourelog : Sourcelog) (src ref h x : Bytes) :
    firstSeen lib sourelog ref src h x = firstSeen lib sourelog src ref h x := by
  unfold firstSeen
  rw [List.filter_congr fun e _ => decide_eq_decide.mpr
    (show recordsBoth lib ref src h e ↔ recordsBoth lib src ref h e from
      ⟨fun ⟨h₁, h₂, h₃⟩ => ⟨h₁, h₃, h₂⟩, fun ⟨h₁, h₂, h₃⟩ => ⟨h₁, h₃, h₂⟩⟩)]

theorem latencyDelta_comm (lib : Lib) (sourelog : Sourcelog) (src ref : Bytes) :
    latencyDelta lib sourelog ref src = fun h => -latencyDelta lib sourelog src ref h := by
  funext h
  unfold latencyDelta
  rw [firstSeen_comm lib sourelog src ref h src, firstSeen_comm lib sourelog src ref h ref]
  omega

/-- `latencyComp(ref, src)` mirrors `latencyComp(src, ref)`, whatever order each call visits
its maps in: the values one records in `srcH` are those the other records in `refH`, and the
other way round, and both count the same shared transactions. So the rows `Sprint` prints for
the pairs `(src, ref)` and `(ref, src)` agree with the two columns swapped. -/
theorem latencyComp_swap (lib : Lib) (txs : EntryMap) (sourelog : Sourcelog)
    (hpos : ∀ e ∈ sourelog.entries, ∀ t ∈ e.2.entries, 0 < t.2.val) (src ref : Bytes)
    (txOrder txOrder' : List (Sigma fun _ : Bytes => TxSummaryEntry))
    (htx : txOrder.Perm txs.entries) (htx' : txOrder'.Perm txs.entries)
    (logOrder logOrder' : List (Sigma fun _ : Bytes => SourceTimes))
    (hlog : logOrder.Perm sourelog.entries) (hlog' : logOrder'.Perm sourelog.entries)
    (R R' : MapRange Bytes fun _ => SourceTimes) :
    let out := Analyzer2.latencyComp lib src ref R txOrder logOrder
    let out' := Analyzer2.latencyComp lib ref src R' txOrder' logOrder'
    ((out'.srcH.map (·.val) : List Int) : Multiset Int) = out.refH.map (·.val) ∧
    ((out'.refH.map (·.val) : List Int) : Multiset Int) = out.srcH.map (·.val) ∧
    out'.totalSeenByBoth = out.totalSeenByBoth := by
  intro out out'
  have hd := @Analyzer2.diffs_range_foldl_firstSeenStep lib src ref _ _ htx _ hpos _ hlog R
  have hd' := @Analyzer2.diffs_range_foldl_firstSeenStep lib ref src _ _ htx' _ hpos _ hlog' R'
  rw [sharedHashes_comm, latencyDelta_comm] at hd'
  set T := logOrder.foldl (Analyzer2.firstSeenStep lib src ref)
    (txOrder.foldl (Analyzer2.noteShared lib src ref) ∅)
  set T' := logOrder'.foldl (Analyzer2.firstSeenStep lib ref src)
    (txOrder'.foldl (Analyzer2.noteShared lib ref src) ∅)
  set S := sharedHashes lib txs src ref
  obtain ⟨hs, hr⟩ := Analyzer2.foldl_bucketStep (R.range T) ([], []) fun e he =>
    (Analyzer2.entry_foldl_firstSeenStep htx hpos hlog ((R.range_perm T).subset he)).2
  obtain ⟨hs', hr'⟩ := Analyzer2.foldl_bucketStep (R'.range T') ([], []) fun e he =>
    (Analyzer2.entry_foldl_firstSeenStep htx' hpos hlog' ((R'.range_perm T').subset he)).2
  have hcard : ∀ T : Sourcelog, T.keys.toFinset = S → T.entries.length = S.card := fun T hT => by
    rw [← hT, List.card_toFinset, List.dedup_eq_self.mpr T.keys_nodup, AList.keys, List.keys,
      List.length_map]
  refine ⟨?_, ?_,
    (hcard T' ?_).trans (hcard T (Analyzer2.keys_foldl_firstSeenStep htx logOrder)).symm⟩
  · show ((((R'.range T').foldl (Analyzer2.bucketStep ref src) ([], [])).1.map
      fun x : Int64 => x.val : List Int) : Multiset Int) =
      (((R.range T).foldl (Analyzer2.bucketStep src ref) ([], [])).2.map fun x : Int64 => x.val)
    rw [hs', hr, List.map_nil, List.nil_append, List.nil_append, ← Multiset.filter_coe,
      ← Multiset.map_coe (fun x : Int => -x), ← Multiset.filter_coe, hd, hd', Multiset.filter_map,
      Multiset.filter_map, Multiset.map_map]
    simp only [Function.comp_def, neg_pos]
  · show ((((R'.range T').foldl (Analyzer2.bucketStep ref src) ([], [])).2.map
      fun x : Int64 => x.val : List Int) : Multiset Int) =
      (((R.range T).foldl (Analyzer2.bucketStep src ref) ([], [])).1.map fun x : Int64 => x.val)
    rw [hr', hs, List.map_nil, List.nil_append, List.nil_append,
      ← Multiset.map_coe (fun x : Int => -x), ← Multiset.filter_coe, ← Multiset.filter_coe, hd, hd',
      Multiset.filter_map, Multiset.filter_map, Multiset.map_map]
    simp only [Function.comp_def, neg_lt_zero, neg_neg]
  · rw [Analyzer2.keys_foldl_firstSeenStep htx' logOrder', sharedHashes_comm]

theorem sample_latency_swap :
    (∀ e ∈ sampleSourcelog.entries, ∀ t ∈ e.2.entries, 0 < t.2.val) ∧
    analyzerTxs.entries.Perm analyzerTxs.entries ∧
    sampleSourcelog.entries.Perm sampleSourcelog.entries ∧
    let out := Analyzer2.latencyComp sampleLib (lit "a") (lit "b") MapRange.stored
      analyzerTxs.entries sampleSourcelog.entries
    let out' := Analyzer2.latencyComp sampleLib (lit "b") (lit "a") MapRange.stored
      analyzerTxs.entries sampleSourcelog.entries
    ((out'.srcH.map (·.val) : List Int) : Multiset Int) = out.refH.map (·.val) ∧
    ((out'.refH.map (·.val) : List Int) : Multiset Int) = out.srcH.map (·.val) ∧
    out'.totalSeenByBoth = out.totalSeenByBoth :=
  ⟨by decide, .refl _, .refl _, latencyComp_swap sampleLib analyzerTxs sampleSourcelog
    (by decide) _ _ _ _ (.refl _) (.refl _) _ _ (.refl _) (.refl _) MapRange.stored MapRange.stored⟩

end MempoolArchiver
