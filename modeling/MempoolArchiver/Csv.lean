import MempoolArchiver.GoString

/-!
# `encoding/csv`, read with a default `Reader`

`LoadTxHashesFromMetadataCSVFiles` reads a whole file with `csv.NewReader(f).ReadAll()`,
with every option at its default: comma `,`, no comment character, `LazyQuotes` and
`TrimLeadingSpace` off, and `FieldsPerRecord` zero, so the first record fixes the field
count of every later one. `readLine` turns a `\r\n` line end into `\n` and drops a `\r`
just before the end of the file; `readRecord` skips empty lines, splits a line at commas,
reads a field that starts with `"` as quoted (`""` is a quote, and the field may run over
line ends), and rejects a quote inside a non-quoted field (`ErrBareQuote`), a quote in a
quoted field followed by anything but a quote, a comma or a line end, or a quoted field
left open at the end of the file (`ErrQuote`). `ReadAll` returns no records at all as soon
as one record fails. The byte-level scan below makes the same decisions one byte at a
time.
-/

namespace MempoolArchiver.Csv

inductive ParseError
  | bareQuote
  | quote
  | fieldCount
deriving DecidableEq, Repr

inductive Mode
  | recordStart
  | fieldStart
  | plain
  | quoted
  | quote
deriving DecidableEq, Repr

structure Scan where
  mode : Mode
  field : Bytes
  fields : List Bytes
  records : List (List Bytes)
  fieldsPerRecord : Option Nat
deriving DecidableEq

def Scan.init : Scan := ⟨.recordStart, [], [], [], none⟩

def Scan.pushField (s : Scan) : Scan :=
  { s with mode := .fieldStart, field := [], fields := s.fields ++ [s.field] }

/-- The end of a record: the field count is checked against the first record's. -/
def Scan.endRecord (s : Scan) : Except ParseError Scan :=
  let record := s.fields ++ [s.field]
  let next : Scan := ⟨.recordStart, [], [], s.records ++ [record], some record.length⟩
  match s.fieldsPerRecord with
  | none => .ok next
  | some n => if record.length = n then .ok next else .error .fieldCount

def Scan.startField (s : Scan) (c : UInt8) : Except ParseError Scan :=
  if c = 34 then .ok { s with mode := .quoted }
  else if c = 44 then .ok s.pushField
  else if c = 10 then s.endRecord
  else .ok { s with mode := .plain, field := [c] }

def Scan.step (s : Scan) (c : UInt8) : Except ParseError Scan :=
  match s.mode with
  | .recordStart => if c = 10 then .ok s else s.startField c
  | .fieldStart => s.startField c
  | .plain =>
    if c = 44 then .ok s.pushField
    else if c = 10 then s.endRecord
    else if c = 34 then .error .bareQuote
    else .ok { s with field := s.field ++ [c] }
  | .quoted => if c = 34 then .ok { s with mode := .quote } else .ok { s with field := s.field ++ [c] }
  | .quote =>
    if c = 34 then .ok { s with mode := .quoted, field := s.field ++ [34] }
    else if c = 44 then .ok s.pushField
    else if c = 10 then s.endRecord
    else .error .quote

def Scan.finish (s : Scan) : Except ParseError (List (List Bytes)) :=
  match s.mode with
  | .recordStart => .ok s.records
  | .quoted => .error .quote
  | _ => s.endRecord.map (·.records)

/-- `readLine`'s line ends: `\r\n` becomes `\n`, and a final `\r` is dropped. -/
def normalize : Bytes → Bytes
  | [] => []
  | [13] => []
  | 13 :: 10 :: rest => 10 :: normalize rest
  | c :: rest => c :: normalize rest

/-- `csv.NewReader(f).ReadAll()` on the contents of `f`. -/
def readAll (input : Bytes) : Except ParseError (List (List Bytes)) :=
  (normalize input).foldlM Scan.step Scan.init >>= Scan.finish

example : readAll (lit "a,b\n\"c\"\"d\",\n") = .ok [[lit "a", lit "b"], [lit "c\"d", []]] :=
  rfl

example : readAll (lit "a,b\nc\n") = .error .fieldCount := rfl

/-! ## Reading back records of plain fields -/

/-- A byte the writers may put in a field without quoting it. -/
def plainByte (b : UInt8) : Bool := b != 44 && b != 34 && b != 10 && b != 13

def Plain (f : Bytes) : Prop := ∀ b ∈ f, plainByte b

/-- Records written one a line, fields joined by commas, as `fmt.Fprintf(f, "%s\n",
strings.Join(row, ","))` writes them. -/
def writeRecords (rs : List (List Bytes)) : Bytes := rs.flatMap fun r => joinComma r ++ [10]

@[simp] theorem ok_bind {α β ε : Type} (x : α) (f : α → Except ε β) :
    (Except.ok x >>= f) = f x := rfl

theorem normalize_of_plain (s : Bytes) (hs : ∀ b ∈ s, b ≠ 13) : normalize s = s := by
  induction s with
  | nil => rfl
  | cons c s ih =>
    simp only [List.mem_cons, forall_eq_or_imp] at hs
    rw [normalize.eq_4 c s (fun h => absurd h hs.1) (fun _ h => absurd h hs.1), ih hs.2]

theorem step_plain {s : Scan} (hs : s.mode = .plain) {c : UInt8} (hc : plainByte c) :
    s.step c = .ok { s with field := s.field ++ [c] } := by
  simp only [plainByte, bne_iff_ne, ne_eq, Bool.and_eq_true, decide_eq_true_eq] at hc
  simp [Scan.step, hs, hc]

theorem foldlM_plain (f : Bytes) (hf : Plain f) (s : Scan) (hs : s.mode = .plain) :
    f.foldlM Scan.step s = .ok { s with field := s.field ++ f } := by
  induction f generalizing s with
  | nil => simp only [List.foldlM_nil, List.append_nil]; rfl
  | cons c f ih =>
    simp only [Plain, List.mem_cons, forall_eq_or_imp] at hf
    rw [List.foldlM_cons, step_plain hs hf.1, ok_bind, ih hf.2 { s with field := s.field ++ [c] } hs]
    simp

theorem foldlM_field (f : Bytes) (hf : Plain f) (s : Scan) (hs : s.mode = .fieldStart)
    (hfield : s.field = []) (stop : UInt8) (hstop : stop = 44 ∨ stop = 10) :
    (f ++ [stop]).foldlM Scan.step s = ({ s with mode := .plain, field := f } : Scan).step stop := by
  cases f with
  | nil =>
    obtain ⟨m, fd, fs, rs, n⟩ := s
    simp only at hs hfield
    subst hs hfield
    rcases hstop with rfl | rfl <;> simp [Scan.step, Scan.startField, Scan.endRecord, Scan.pushField]
  | cons c f =>
    simp only [Plain, List.mem_cons, forall_eq_or_imp] at hf
    have hc := hf.1
    simp only [plainByte, bne_iff_ne, ne_eq, Bool.and_eq_true, decide_eq_true_eq] at hc
    have h1 : s.step c = .ok { s with mode := .plain, field := [c] } := by
      simp [Scan.step, hs, Scan.startField, hc]
    rw [List.cons_append, List.foldlM_cons, h1, ok_bind, List.foldlM_append,
      foldlM_plain f hf.2 _ rfl, ok_bind]
    simp

theorem foldlM_record (r : List Bytes) (hr : r ≠ []) (hp : ∀ f ∈ r, Plain f) (s : Scan)
    (hs : s.mode = .fieldStart) (hfield : s.field = []) :
    (joinComma r ++ [10]).foldlM Scan.step s =
      ({ s with fields := s.fields ++ r.dropLast, field := r.getLast hr } : Scan).endRecord := by
  induction r generalizing s with
  | nil => contradiction
  | cons f r ih =>
    simp only [List.mem_cons, forall_eq_or_imp] at hp
    cases r with
    | nil =>
      rw [joinComma_singleton, foldlM_field f hp.1 s hs hfield 10 (.inr rfl)]
      simp [Scan.step, Scan.endRecord]
    | cons g r =>
      have hsplit : joinComma (f :: g :: r) ++ [10] = (f ++ [44]) ++ (joinComma (g :: r) ++ [10]) := by
        simp [joinComma_cons_cons]
      rw [hsplit, List.foldlM_append, foldlM_field f hp.1 s hs hfield 44 (.inl rfl)]
      simp only [Scan.step, if_pos, ok_bind]
      rw [ih (List.cons_ne_nil g r) hp.2 _ rfl rfl]
      simp [Scan.pushField, List.dropLast_cons₂, hs]

theorem joinComma_bytes {r : List Bytes} (hp : ∀ f ∈ r, Plain f) {b : UInt8}
    (hb : b ∈ joinComma r) : b ≠ 10 ∧ b ≠ 13 := by
  rcases mem_joinComma hb with rfl | ⟨f, hf, hbf⟩
  · decide
  · have := hp f hf b hbf
    simp only [plainByte, bne_iff_ne, ne_eq, Bool.and_eq_true, decide_eq_true_eq] at this
    exact ⟨this.1.2, this.2⟩

theorem step_recordStart (acc : List (List Bytes)) (n : Option Nat) {c : UInt8} (hc : c ≠ 10) :
    Scan.step ⟨.recordStart, [], [], acc, n⟩ c = Scan.step ⟨.fieldStart, [], [], acc, n⟩ c := by
  simp [Scan.step, hc, Scan.startField, Scan.pushField, Scan.endRecord]

theorem foldlM_records (rs : List (List Bytes)) (k : Nat) (hp : ∀ r ∈ rs, ∀ f ∈ r, Plain f)
    (hk : ∀ r ∈ rs, r.length = k) (hne : ∀ r ∈ rs, joinComma r ≠ [])
    (acc : List (List Bytes)) (n : Option Nat) (hn : n = none ∨ n = some k) :
    (writeRecords rs).foldlM Scan.step ⟨.recordStart, [], [], acc, n⟩ =
      .ok ⟨.recordStart, [], [], acc ++ rs, if rs = [] then n else some k⟩ := by
  induction rs generalizing acc n with
  | nil => simp [writeRecords]; rfl
  | cons r rs ih =>
    simp only [List.mem_cons, forall_eq_or_imp] at hp hk hne
    have hr : r ≠ [] := by rintro rfl; exact hne.1 rfl
    obtain ⟨c, cs, hcs⟩ := List.exists_cons_of_ne_nil hne.1
    have hc : c ≠ 10 := (joinComma_bytes hp.1 (hcs ▸ List.mem_cons_self c cs)).1
    have hrec : (joinComma r ++ [10]).foldlM Scan.step ⟨.recordStart, [], [], acc, n⟩ =
        .ok ⟨.recordStart, [], [], acc ++ [r], some k⟩ := by
      rw [hcs, List.cons_append, List.foldlM_cons, step_recordStart acc n hc, ← List.foldlM_cons,
        ← List.cons_append, ← hcs, foldlM_record r hr hp.1 _ rfl rfl]
      rcases hn with rfl | rfl <;> simp [Scan.endRecord, List.dropLast_append_getLast, hk.1]
    rw [writeRecords, List.flatMap_cons, List.foldlM_append, hrec, ok_bind]
    have := ih hp.2 hk.2 hne.2 (acc ++ [r]) (some k) (.inr rfl)
    rw [writeRecords] at this
    simpa using this

theorem readAll_writeRecords (rs : List (List Bytes)) (k : Nat) (hp : ∀ r ∈ rs, ∀ f ∈ r, Plain f)
    (hk : ∀ r ∈ rs, r.length = k) (hne : ∀ r ∈ rs, joinComma r ≠ []) :
    readAll (writeRecords rs) = .ok rs := by
  have hcr : ∀ b ∈ writeRecords rs, b ≠ 13 := by
    simp only [writeRecords, List.mem_flatMap, List.mem_append, List.mem_singleton]
    rintro b ⟨r, hr, hb | rfl⟩
    · exact (joinComma_bytes (hp r hr) hb).2
    · decide
  rw [readAll, normalize_of_plain _ hcr, Scan.init, foldlM_records rs k hp hk hne [] none (.inl rfl),
    ok_bind]
  rfl

/-! ## What `readAll` accepts -/

theorem Scan.step_records {s t : Scan} {c : UInt8} (ht : s.step c = .ok t) :
    s.endRecord = .ok t ∨ (t.records = s.records ∧ t.fieldsPerRecord = s.fieldsPerRecord) := by
  unfold Scan.step Scan.startField at ht
  split at ht <;> (repeat' split at ht) <;> first
    | exact .inl ht
    | (cases ht; exact .inr ⟨rfl, rfl⟩)
    | cases ht

def Scan.Uniform (s : Scan) : Prop := ∀ r ∈ s.records, r ≠ [] ∧ s.fieldsPerRecord = some r.length

theorem Scan.Uniform.endRecord {s t : Scan} (hs : s.Uniform) (ht : s.endRecord = .ok t) :
    t.Uniform := by
  unfold Scan.endRecord at ht
  cases hn : s.fieldsPerRecord with
  | none =>
    have hnil : s.records = [] :=
      List.eq_nil_iff_forall_not_mem.mpr fun r hr => by simpa [hn] using (hs r hr).2
    simp only [hn, Except.ok.injEq] at ht
    subst ht
    simp [Scan.Uniform, hnil]
  | some n =>
    simp only [hn] at ht
    split_ifs at ht with hlen
    simp only [Except.ok.injEq] at ht
    subst ht
    intro r hr
    simp only [List.mem_append, List.mem_singleton] at hr
    rcases hr with hr | rfl
    · obtain ⟨hne, hr⟩ := hs r hr
      rw [hn] at hr
      exact ⟨hne, by rw [hlen, hr]⟩
    · simp

theorem Scan.Uniform.step {s t : Scan} {c : UInt8} (hs : s.Uniform) (ht : s.step c = .ok t) :
    t.Uniform := by
  rcases Scan.step_records ht with h | ⟨hr, hn⟩
  · exact hs.endRecord h
  · intro r hmem
    rw [hn]
    exact hs r (hr ▸ hmem)

theorem Scan.Uniform.foldlM {cs : List UInt8} {s t : Scan} (hs : s.Uniform)
    (h : cs.foldlM Scan.step s = .ok t) : t.Uniform := by
  induction cs generalizing s with
  | nil =>
    cases h
    exact hs
  | cons c cs ih =>
    rw [List.foldlM_cons] at h
    cases hc : s.step c with
    | error e => rw [hc] at h; cases h
    | ok s' =>
      rw [hc, ok_bind] at h
      exact ih (hs.step hc) h

theorem readAll_uniform {input : Bytes} {rs : List (List Bytes)} (h : readAll input = .ok rs) :
    ∀ r ∈ rs, r ≠ [] ∧ ∀ r' ∈ rs, r'.length = r.length := by
  unfold readAll at h
  cases hf : (normalize input).foldlM Scan.step Scan.init with
  | error e => rw [hf] at h; cases h
  | ok s =>
    rw [hf, ok_bind] at h
    have hs : s.Uniform := Scan.Uniform.foldlM (fun r hr => by simp [Scan.init] at hr) hf
    obtain ⟨t, ht, rfl⟩ : ∃ t : Scan, t.Uniform ∧ rs = t.records := by
      unfold Scan.finish at h
      split at h
      · cases h
        exact ⟨s, hs, rfl⟩
      · cases h
      · cases he : s.endRecord with
        | error e => rw [he] at h; cases h
        | ok t =>
          rw [he] at h
          cases h
          exact ⟨t, hs.endRecord he, rfl⟩
    intro r hr
    refine ⟨(ht r hr).1, fun r' hr' => ?_⟩
    have := (ht r hr).2.symm.trans (ht r' hr').2
    simpa using this.symm

end MempoolArchiver.Csv
