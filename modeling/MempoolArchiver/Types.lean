import MempoolArchiver.Csv

/-!
# Transactions and their summaries

`parseTx` decodes a raw transaction with `RLPStringToTx`, recovers its sender, and renders
every field of a `TxSummaryEntry` as text: hashes and calldata as `hexutil.Encode` does,
addresses in their EIP-55 checksummed form, and numbers in decimal. The decoder, signature
recovery, Keccak-256 and the Unicode case tables are not among the sources; `Lib` holds
them. The merge stage reads entries that also carry their sources, inclusion status and raw
payload; those fields follow the spec's enriched summary.
-/

namespace MempoolArchiver

structure Hash where
  bytes : Bytes
  length_eq : bytes.length = 32
deriving DecidableEq

structure Address where
  bytes : Bytes
  length_eq : bytes.length = 20
deriving DecidableEq

def zeroAddress : Address := ⟨List.replicate 20 0, by simp⟩

/-- What `parseTx` reads of a decoded `types.Transaction`. -/
structure Transaction where
  hash : Hash
  chainId : Nat
  to_ : Option Address
  value : Nat
  nonce : UInt64
  gas : UInt64
  gasPrice : Nat
  gasTipCap : Nat
  gasFeeCap : Nat
  data : Bytes
  data_length : data.length < 2 ^ 63

/-- The library functions the sources call but do not define. -/
structure Lib where
  /-- `common.RLPStringToTx`, the decoder of a raw transaction's hex text. -/
  rlpStringToTx : Bytes → Option Transaction
  /-- `types.Sender(types.LatestSignerForChainID(tx.ChainId()), tx)`. -/
  sender : Transaction → Option Address
  keccak256 : Bytes → Bytes
  /-- The non-ASCII path of `strings.ToLower`. -/
  unicodeLower : Bytes → Bytes

/-- `Hash.Hex`. -/
def Hash.hex (h : Hash) : Bytes := hexEncode h.bytes

/-- `Address.Hex`: the lowercase hex digits, each letter raised to upper case when the
matching nibble of the Keccak-256 hash of those digits is above seven. -/
def Address.hex (keccak256 : Bytes → Bytes) (a : Address) : Bytes :=
  let digits := (hexEncode a.bytes).drop 2
  let hash := keccak256 digits
  lit "0x" ++ digits.mapIdx fun i c =>
    let hashByte := (hash.getD (i / 2) 0).toNat
    let nibble := if i % 2 = 0 then hashByte / 16 else hashByte % 16
    if 57 < c.toNat ∧ 7 < nibble then c - 32 else c

/-- `TxSummaryEntry`, with the fields the merge stage adds: `sources`, the inclusion status
and the raw transaction `RawTxHex()` returns. -/
structure TxSummaryEntry where
  timestamp : Int64
  hash : Bytes
  chainID : Bytes
  from_ : Bytes
  to_ : Bytes
  value : Bytes
  nonce : Bytes
  gas : Bytes
  gasPrice : Bytes
  gasTipCap : Bytes
  gasFeeCap : Bytes
  dataSize : Int64
  data4Bytes : Bytes
  sources : List Bytes := []
  includedAtBlockHeight : Int64 := Int64.zero
  includedBlockTimestamp : Int64 := Int64.zero
  inclusionDelayMs : Int64 := Int64.zero
  rawTxHex : Bytes := []
deriving DecidableEq

def TxSummaryEntry.toCSVRow (t : TxSummaryEntry) : List Bytes :=
  [fmtInt t.timestamp.val, t.hash, t.chainID, t.from_, t.to_, t.value, t.nonce, t.gas,
    t.gasPrice, t.gasTipCap, t.gasFeeCap, fmtInt t.dataSize.val, t.data4Bytes]

def txSummaryEntryCSVHeader : List Bytes :=
  [lit "timestamp_ms", lit "hash", lit "chain_id", lit "from", lit "to", lit "value",
    lit "nonce", lit "gas", lit "gas_price", lit "gas_tip_cap", lit "gas_fee_cap",
    lit "data_size", lit "data_4bytes"]

structure TxEnvelope where
  rlp : Bytes
  summary : TxSummaryEntry
deriving DecidableEq

/-- The `TxSummaryEntry` that `parseTx` builds from a decoded transaction. -/
def summarize (lib : Lib) (timestampMs : Int64) (tx : Transaction) : TxSummaryEntry :=
  let from_ := (lib.sender tx).getD zeroAddress
  let to_ := match tx.to_ with
    | some a => a.hex lib.keccak256
    | none => []
  let data4Bytes := if 4 ≤ tx.data.length then hexEncode (tx.data.take 4) else []
  { timestamp := timestampMs
    hash := tx.hash.hex
    chainID := decimal tx.chainId
    from_ := from_.hex lib.keccak256
    to_ := to_
    value := decimal tx.value
    nonce := decimal tx.nonce.toNat
    gas := decimal tx.gas.toNat
    gasPrice := decimal tx.gasPrice
    gasTipCap := decimal tx.gasTipCap
    gasFeeCap := decimal tx.gasFeeCap
    dataSize := Int64.ofNat tx.data.length tx.data_length
    data4Bytes := data4Bytes }

/-- `parseTx(timestampMs, hash, rawTx)`. The `hash` argument is not read: the summary's hash
is the decoded transaction's own. -/
def parseTx (lib : Lib) (timestampMs : Int64) (_hash rawTx : Bytes) :
    Option (TxSummaryEntry × Transaction) := do
  let tx ← lib.rlpStringToTx rawTx
  pure (summarize lib timestampMs tx, tx)

@[simp] theorem parseTx_eq_some {lib : Lib} {ts : Int64} {hash rawTx : Bytes}
    {t : TxSummaryEntry} {tx : Transaction} :
    parseTx lib ts hash rawTx = some (t, tx) ↔
      lib.rlpStringToTx rawTx = some tx ∧ summarize lib ts tx = t := by
  simp only [parseTx, Option.bind_eq_bind, Option.bind_eq_some, Option.pure_def, Option.some.injEq,
    Prod.mk.injEq]
  constructor
  · rintro ⟨tx', h, rfl, rfl⟩; exact ⟨h, rfl⟩
  · rintro ⟨h, rfl⟩; exact ⟨tx, h, rfl, rfl⟩

@[simp] theorem parseTx_eq_none {lib : Lib} {ts : Int64} {hash rawTx : Bytes} :
    parseTx lib ts hash rawTx = none ↔ lib.rlpStringToTx rawTx = none := by
  cases h : lib.rlpStringToTx rawTx <;> simp [parseTx, h]

@[simp] theorem summarize_timestamp (lib : Lib) (ts : Int64) (tx : Transaction) :
    (summarize lib ts tx).timestamp = ts := rfl

@[simp] theorem summarize_hash (lib : Lib) (ts : Int64) (tx : Transaction) :
    (summarize lib ts tx).hash = tx.hash.hex := rfl

/-! ## What the renderings are made of -/

open Csv

theorem plainByte_of_ge {b : UInt8} (h : 45 ≤ b.toNat) : plainByte b := by
  simp only [plainByte, bne_iff_ne, ne_eq, Bool.and_eq_true, decide_eq_true_eq]
  refine ⟨⟨⟨?_, ?_⟩, ?_⟩, ?_⟩ <;> rintro rfl <;> exact absurd h (by decide)

theorem hexDigit_toNat {d : Nat} (hd : d < 16) :
    (hexDigit d).toNat = if d < 10 then 48 + d else 87 + d := by
  unfold hexDigit
  split_ifs <;> exact UInt8.toNat_ofNat_of_lt (by simp [UInt8.size]; omega)

def LowerHexDigit (b : UInt8) : Prop :=
  48 ≤ b.toNat ∧ b.toNat ≤ 57 ∨ 97 ≤ b.toNat ∧ b.toNat ≤ 102

theorem hexEncode_eq (bs : Bytes) :
    hexEncode bs = 48 :: 120 :: bs.flatMap fun b => [hexDigit (b.toNat / 16), hexDigit (b.toNat % 16)] :=
  rfl

theorem lowerHexDigit_of_mem {bs : Bytes} {b : UInt8}
    (h : b ∈ bs.flatMap fun b => [hexDigit (b.toNat / 16), hexDigit (b.toNat % 16)]) :
    LowerHexDigit b := by
  simp only [List.mem_flatMap, List.mem_cons, List.not_mem_nil, or_false] at h
  obtain ⟨c, -, rfl | rfl⟩ := h
  · have hc : c.toNat < 256 := UInt8.toNat_lt_size c
    have := hexDigit_toNat (d := c.toNat / 16) (by omega)
    unfold LowerHexDigit; split_ifs at this <;> omega
  · have := hexDigit_toNat (d := c.toNat % 16) (by omega)
    unfold LowerHexDigit; split_ifs at this <;> omega

theorem hexEncode_ge (bs : Bytes) : ∀ b ∈ hexEncode bs, 48 ≤ b.toNat := by
  intro b hb
  rw [hexEncode_eq] at hb
  rcases List.mem_cons.mp hb with rfl | hb
  · decide
  rcases List.mem_cons.mp hb with rfl | hb
  · decide
  rcases lowerHexDigit_of_mem hb with h | h <;> omega

theorem checksumByte_ge {c : UInt8} (hc : LowerHexDigit c) (nibble : Nat) :
    48 ≤ (if 57 < c.toNat ∧ 7 < nibble then c - 32 else c).toNat := by
  unfold LowerHexDigit at hc
  split_ifs
  · rw [UInt8.toNat_sub_of_le c 32 (UInt8.le_def.mpr (BitVec.le_def.mpr
      (show 32 ≤ c.toNat by omega)))]
    show 48 ≤ c.toNat - 32
    omega
  · omega

theorem addressHex_ge (k : Bytes → Bytes) (a : Address) : ∀ b ∈ a.hex k, 48 ≤ b.toNat := by
  intro b hb
  rw [Address.hex, hexEncode_eq, show lit "0x" = [48, 120] from rfl] at hb
  rcases List.mem_append.mp hb with hb | hb
  · simp only [List.mem_cons, List.not_mem_nil, or_false] at hb
    rcases hb with rfl | rfl <;> decide
  simp only [List.drop_succ_cons, List.drop_zero] at hb
  obtain ⟨i, hi, rfl⟩ := List.mem_mapIdx.mp hb
  exact checksumByte_ge (lowerHexDigit_of_mem (List.getElem_mem hi)) _

theorem fmtInt_ge (i : Int) : ∀ b ∈ fmtInt i, 45 ≤ b.toNat := by
  have hd : ∀ n, ∀ b ∈ decimal n, 45 ≤ b.toNat := fun n b hb => by
    have := decimal_digits n b hb
    simp only [isDigit, Bool.and_eq_true, decide_eq_true_eq] at this
    omega
  unfold fmtInt
  split_ifs
  · rintro b (_ | ⟨_, hb⟩)
    · decide
    · exact hd _ b hb
  · exact hd _

theorem plain_of_ge {f : Bytes} (h : ∀ b ∈ f, 45 ≤ b.toNat) : Plain f :=
  fun b hb => plainByte_of_ge (h b hb)

theorem summarize_row_plain (lib : Lib) (ts : Int64) (tx : Transaction) :
    ∀ f ∈ (summarize lib ts tx).toCSVRow, Plain f := by
  have hdec : ∀ n, ∀ b ∈ decimal n, 45 ≤ b.toNat := fun n b hb =>
    fmtInt_ge n b (by simpa [fmtInt] using hb)
  have hhex : ∀ bs, ∀ b ∈ hexEncode bs, 45 ≤ b.toNat := fun bs b hb =>
    (hexEncode_ge bs b hb).trans' (by omega)
  have haddr : ∀ a : Address, ∀ b ∈ a.hex lib.keccak256, 45 ≤ b.toNat := fun a b hb =>
    (addressHex_ge _ a b hb).trans' (by omega)
  simp only [TxSummaryEntry.toCSVRow, summarize, List.mem_cons, List.not_mem_nil, or_false]
  rintro f (rfl | rfl | rfl | rfl | rfl | rfl | rfl | rfl | rfl | rfl | rfl | rfl | rfl) <;>
    apply plain_of_ge
  · exact fmtInt_ge _
  · exact hhex _
  · exact hdec _
  · exact haddr _
  · split
    · exact haddr _
    · exact List.forall_mem_nil _
  iterate 6 exact hdec _
  · exact fmtInt_ge _
  · split_ifs
    · exact hhex _
    · exact List.forall_mem_nil _

theorem hexEncode_lower (bs : Bytes) :
    ∀ b ∈ hexEncode bs, b.toNat < 128 ∧ ¬(65 ≤ b.toNat ∧ b.toNat ≤ 90) := by
  intro b hb
  rw [hexEncode_eq] at hb
  rcases List.mem_cons.mp hb with rfl | hb
  · decide
  rcases List.mem_cons.mp hb with rfl | hb
  · decide
  rcases lowerHexDigit_of_mem hb with h | h <;> omega

theorem toLower_hashHex (f : Bytes → Bytes) (h : Hash) : toLower f h.hex = h.hex :=
  toLower_of_lower f _ (hexEncode_lower _)

theorem hexEncode_length (bs : Bytes) : (hexEncode bs).length = 2 + 2 * bs.length := by
  induction bs with
  | nil => rfl
  | cons b bs ih =>
    simp only [hexEncode_eq, List.length_cons, List.flatMap_cons, List.length_append,
      List.length_nil] at ih ⊢
    omega

theorem hashHex_length (h : Hash) : h.hex.length = 66 := by
  rw [Hash.hex, hexEncode_length, h.length_eq]

end MempoolArchiver
