import BitTorrent.Lib.Bencode

/-!
# The bencoding package

`bendy` is a parameter: `Bendy` has the functions the program calls, `Bendy.Lawful` what it relies
on.  An object of the decoder is the value it reads, so a value is decoded whole before the program
looks at its parts, and the callbacks that emit tokens are the value they emit.  `bendyOfRead` is the
encoder and the reader of `Lib.Bencode`.

Decoding errors keep the path of their contexts and the name of the field, as the bytes of the key.
-/

namespace Btt
open Bencode

/-! ## strings -/

/-- `s.as_bytes()` -/
def utf8 (s : String) : Bytes := s.toUTF8.data.toList

/-- `String::from_utf8` -/
def fromUtf8 (data : Bytes) : Option String := String.fromUTF8? ⟨data.toArray⟩

theorem fromUtf8_utf8 (s : String) : fromUtf8 (utf8 s) = some s := by
  rw [fromUtf8, utf8, Array.toArray_toList, String.fromUTF8?]
  exact dif_pos s.isValidUTF8

@[simp] theorem utf8_inj {s t : String} : utf8 s = utf8 t ↔ s = t := by
  refine ⟨fun h => ?_, fun h => by rw [h]⟩
  have hs := fromUtf8_utf8 s
  rw [h, fromUtf8_utf8] at hs
  exact (Option.some.inj hs).symm

/-! ## errors -/

inductive ErrorKind where
  | missingField (name : String)
  | unexpectedField (name : Bytes)
  | unexpectedToken
  | malformedContent
  | structureError
deriving DecidableEq

structure DecodingError where
  context : List String
  kind : ErrorKind
deriving DecidableEq

def missingField (name : String) : DecodingError := ⟨[], .missingField name⟩
def unexpectedField (name : Bytes) : DecodingError := ⟨[], .unexpectedField name⟩

abbrev Decoding (α : Type) := Except DecodingError α

@[simp] theorem ok_bind {α β : Type} (a : α) (f : α → Decoding β) : (Except.ok a >>= f) = f a := rfl

/-- a computation that succeeds went through all its steps -/
theorem bind_eq_ok {ε α β : Type} {x : Except ε α} {f : α → Except ε β} {b : β} (h : (x >>= f) = .ok b) :
    ∃ a, x = .ok a ∧ f a = .ok b := by
  cases x with
  | error e => cases h
  | ok a => exact ⟨a, rfl, h⟩

/-- `result.context(c)` -/
def withContext {α : Type} (c : String) (result : Decoding α) : Decoding α :=
  result.mapError fun e => { e with context := c :: e.context }

@[simp] theorem withContext_ok {α : Type} (c : String) (a : α) : withContext c (.ok a) = .ok a := rfl

/-- `o.ok_or(DecodingError::missing_field(name))` -/
def okOrMissing {α : Type} (name : String) : Option α → Decoding α
  | some a => .ok a
  | none => .error (missingField name)

@[simp] theorem okOrMissing_some {α : Type} (name : String) (a : α) : okOrMissing name (some a) = .ok a := rfl

/-! ## the parameter -/

structure Bendy where
  /-- `Encoder::new().with_max_depth(d)`, one value, `get_output()` -/
  encode : Nat → Value → Except String Bytes
  /-- `Decoder::new(data).with_max_depth(d).next_object()`, read to its end -/
  decode : Nat → Bytes → Decoding Value
  /-- `into_raw` of the dictionary that was read as this value -/
  intoRaw : Value → Bytes
  /-- the default of `EXPECTED_RECURSION_DEPTH` -/
  defaultDepth : Nat

structure Bendy.Lawful (B : Bendy) : Prop where
  /-- nesting beyond the limit and keys out of order are refused, and nothing else -/
  encode_ok : ∀ d v, (∃ data, B.encode d v = .ok data) ↔ v.admissible d = true
  /-- an encoding whose nesting is within the reader's limit is read back -/
  decode_encode : ∀ {d l v data}, B.encode d v = .ok data → v.admissible l = true → B.decode l data = .ok v
  /-- the limit does not show in the bytes, and the raw bytes of a dictionary are its encoding -/
  intoRaw_encode : ∀ {d v data}, B.encode d v = .ok data → B.intoRaw v = data
  defaultDepth_eq : B.defaultDepth = 2048

def bendyOfRead : Bendy where
  encode d v := if v.admissible d = true then .ok v.encode else .error "StructureError"
  decode d data :=
    match read d data with
    | none => .error ⟨[], .structureError⟩
    | some (v, _) => .ok v
  intoRaw v := v.encode
  defaultDepth := 2048

theorem bendyOfRead_encode {d : Nat} {v : Value} {data : Bytes} (h : bendyOfRead.encode d v = .ok data) :
    v.admissible d = true ∧ v.encode = data := by
  by_cases hv : v.admissible d = true
  · refine ⟨hv, ?_⟩
    simp only [bendyOfRead, if_pos hv] at h
    exact Except.ok.inj h
  · simp only [bendyOfRead, if_neg hv] at h
    cases h

theorem bendyOfRead_lawful : bendyOfRead.Lawful where
  encode_ok d v := by
    refine ⟨fun ⟨data, h⟩ => (bendyOfRead_encode h).1, fun h => ⟨v.encode, ?_⟩⟩
    simp only [bendyOfRead, if_pos h]
  decode_encode := by
    intro d l v data h hl
    obtain ⟨-, rfl⟩ := bendyOfRead_encode h
    have hread := read_encode l v hl []
    rw [List.append_nil] at hread
    simp only [bendyOfRead, hread]
  intoRaw_encode h := (bendyOfRead_encode h).2
  defaultDepth_eq := rfl

/-- what is relied on for bytes from outside -/
structure Bendy.LawfulReads (B : Bendy) : Prop where
  /-- what is read is nested within the limit, and the keys of its dictionaries increase -/
  decode_admissible : ∀ {l data v}, B.decode l data = .ok v → v.admissible l = true
  /-- a greater limit does not change what is read -/
  decode_mono : ∀ {l l' data v}, l ≤ l' → B.decode l data = .ok v → B.decode l' data = .ok v

theorem bendyOfRead_decode {l : Nat} {data : Bytes} {v : Value} :
    bendyOfRead.decode l data = .ok v ↔ ∃ rest, read l data = some (v, rest) := by
  show (match read l data with | none => _ | some (v, _) => _) = _ ↔ _
  cases read l data with
  | none =>
    constructor
    · intro h
      cases h
    · rintro ⟨rest, h⟩
      cases h
  | some r =>
    obtain ⟨w, rest⟩ := r
    constructor
    · intro h
      cases h
      exact ⟨rest, rfl⟩
    · rintro ⟨rest', h⟩
      cases h
      rfl

theorem bendyOfRead_lawfulReads : bendyOfRead.LawfulReads where
  decode_admissible := by
    intro l data v h
    obtain ⟨rest, hread⟩ := bendyOfRead_decode.mp h
    exact read_admissible hread
  decode_mono := by
    intro l l' data v hle h
    obtain ⟨rest, hread⟩ := bendyOfRead_decode.mp h
    exact bendyOfRead_decode.mpr ⟨rest, read_mono hle hread⟩

/-! ## objects and the decoders of the basic types -/

def tryIntoDictionary : Value → Decoding (List (Bytes × Value))
  | .dict pairs => .ok pairs
  | _ => .error ⟨[], .unexpectedToken⟩

def tryIntoList : Value → Decoding (List Value)
  | .list items => .ok items
  | _ => .error ⟨[], .unexpectedToken⟩

def tryIntoBytes : Value → Decoding Bytes
  | .bytes s => .ok s
  | _ => .error ⟨[], .unexpectedToken⟩

def tryIntoInteger : Value → Decoding Int
  | .int n => .ok n
  | _ => .error ⟨[], .unexpectedToken⟩

/-- `String::decode_bencode_object` -/
def decodeString (object : Value) : Decoding String := do
  let data ← tryIntoBytes object
  match fromUtf8 data with
  | some s => .ok s
  | none => .error ⟨[], .malformedContent⟩

/-- an integer of a type with the values `lo ≤ n < hi` -/
def decodeInteger (lo hi : Int) (object : Value) : Decoding Int := do
  let n ← tryIntoInteger object
  if lo ≤ n ∧ n < hi then .ok n else .error ⟨[], .malformedContent⟩

/-- `u64::`, `u32::` and `i64::decode_bencode_object` -/
def decodeU64 (object : Value) : Decoding Nat := (decodeInteger 0 (2 ^ 64) object).map Int.toNat
def decodeU32 (object : Value) : Decoding Nat := (decodeInteger 0 (2 ^ 32) object).map Int.toNat
def decodeI64 (object : Value) : Decoding Int := decodeInteger (-2 ^ 63) (2 ^ 63) object

/-- `ToBencode` for `String` -/
def encodeString (s : String) : Value := .bytes (utf8 s)

@[simp] theorem decodeString_encode (s : String) : decodeString (encodeString s) = .ok s := by
  show (match fromUtf8 (utf8 s) with | some s => _ | none => _) = _
  rw [fromUtf8_utf8]

theorem decodeInteger_int {lo hi n : Int} (h : lo ≤ n ∧ n < hi) : decodeInteger lo hi (.int n) = .ok n := if_pos h

theorem decodeU64_int {n : Nat} (h : n < 2 ^ 64) : decodeU64 (.int n) = .ok n := by
  rw [decodeU64, decodeInteger_int ⟨by omega, by exact_mod_cast h⟩]
  rfl

theorem decodeI64_int {n : Int} (h : -2 ^ 63 ≤ n ∧ n < 2 ^ 63) : decodeI64 (.int n) = .ok n := decodeInteger_int h

/-! what the decoders accept is what the encoders write -/

theorem withContext_eq_ok {α : Type} {c : String} {result : Decoding α} {a : α} (h : withContext c result = .ok a) :
    result = .ok a := by
  cases result with
  | error e => cases h
  | ok b => exact h

theorem okOrMissing_eq_ok {α : Type} {name : String} {o : Option α} {a : α} (h : okOrMissing name o = .ok a) :
    o = some a := by
  cases o <;> cases h
  rfl

theorem tryIntoDictionary_eq_ok {object : Value} {pairs : List (Bytes × Value)}
    (h : tryIntoDictionary object = .ok pairs) : object = .dict pairs := by
  cases object <;> cases h
  rfl

theorem tryIntoList_eq_ok {object : Value} {items : List Value} (h : tryIntoList object = .ok items) :
    object = .list items := by
  cases object <;> cases h
  rfl

theorem tryIntoBytes_eq_ok {object : Value} {data : Bytes} (h : tryIntoBytes object = .ok data) :
    object = .bytes data := by
  cases object <;> cases h
  rfl

theorem utf8_of_fromUtf8 {data : Bytes} {s : String} (h : fromUtf8 data = some s) : utf8 s = data := by
  unfold fromUtf8 String.fromUTF8? at h
  split at h
  · cases h
    rfl
  · cases h

theorem encodeString_of_decodeString {object : Value} {s : String} (h : decodeString object = .ok s) :
    object = encodeString s := by
  obtain ⟨data, hdata, h⟩ := bind_eq_ok h
  cases hs : fromUtf8 data with
  | none =>
    rw [hs] at h
    cases h
  | some t =>
    rw [hs] at h
    cases h
    rw [tryIntoBytes_eq_ok hdata, encodeString, utf8_of_fromUtf8 hs]

theorem int_of_decodeInteger {lo hi n : Int} {object : Value} (h : decodeInteger lo hi object = .ok n) :
    object = .int n ∧ lo ≤ n ∧ n < hi := by
  obtain ⟨k, hk, h⟩ := bind_eq_ok h
  split at h
  · rename_i hrange
    cases h
    refine ⟨?_, hrange⟩
    cases object <;> cases hk
    rfl
  · cases h

theorem int_of_decodeU64 {object : Value} {n : Nat} (h : decodeU64 object = .ok n) :
    object = .int n ∧ n < 2 ^ 64 := by
  unfold decodeU64 at h
  cases hd : decodeInteger 0 (2 ^ 64) object with
  | error e =>
    rw [hd] at h
    cases h
  | ok k =>
    rw [hd] at h
    cases h
    obtain ⟨hobject, h0, hlt⟩ := int_of_decodeInteger hd
    refine ⟨?_, by omega⟩
    rw [hobject, Int.toNat_of_nonneg h0]

/-- what each turn of a loop keeps, a loop that succeeds keeps -/
theorem foldlM_keeps {σ α : Type} {step : σ → α → Decoding σ} {I : σ → Prop} {xs : List α}
    (hstep : ∀ x ∈ xs, ∀ s s', I s → step s x = .ok s' → I s') {s s' : σ} (hs : I s)
    (h : xs.foldlM step s = .ok s') : I s' := by
  induction xs generalizing s with
  | nil =>
    cases h
    exact hs
  | cons x xs ih =>
    rw [List.foldlM_cons] at h
    obtain ⟨t, ht, h⟩ := bind_eq_ok h
    exact ih (fun y hy => hstep y (List.mem_cons_of_mem x hy)) (hstep x List.mem_cons_self s t hs ht) h

/-- what one of the turns establishes and the others keep -/
theorem foldlM_sets {σ α : Type} {step : σ → α → Decoding σ} {J : σ → Prop} {x : α}
    (hset : ∀ s s', step s x = .ok s' → J s') (hkeep : ∀ y s s', J s → step s y = .ok s' → J s') {xs : List α}
    (hx : x ∈ xs) {s s' : σ} (h : xs.foldlM step s = .ok s') : J s' := by
  obtain ⟨pre, post, rfl⟩ := List.append_of_mem hx
  rw [List.foldlM_append] at h
  obtain ⟨t, -, h⟩ := bind_eq_ok h
  rw [List.foldlM_cons] at h
  obtain ⟨u, hu, h⟩ := bind_eq_ok h
  exact foldlM_keeps (fun y _ => hkeep y) (hset t u hu) h

theorem mem_of_mapM {α : Type} {decode : Value → Decoding α} {items : List Value} {xs : List α}
    (h : items.mapM decode = .ok xs) {x : α} (hx : x ∈ xs) : ∃ v ∈ items, decode v = .ok x := by
  induction items generalizing xs with
  | nil =>
    cases h
    cases hx
  | cons v items ih =>
    rw [List.mapM_cons] at h
    obtain ⟨y, hy, h⟩ := bind_eq_ok h
    obtain ⟨ys, hys, h⟩ := bind_eq_ok h
    cases h
    rcases List.mem_cons.mp hx with rfl | hx
    · exact ⟨v, List.mem_cons_self, hy⟩
    · obtain ⟨w, hw, hdecode⟩ := ih hys hx
      exact ⟨w, List.mem_cons_of_mem _ hw, hdecode⟩

theorem mapM_eq_nil {α : Type} {decode : Value → Decoding α} {items : List Value}
    (h : items.mapM decode = .ok []) : items = [] := by
  cases items with
  | nil => rfl
  | cons v items =>
    rw [List.mapM_cons] at h
    obtain ⟨y, -, h⟩ := bind_eq_ok h
    obtain ⟨ys, -, h⟩ := bind_eq_ok h
    cases h

/-- reading a list whose items are read back one by one -/
theorem mapM_map_ok {α : Type} {decode : Value → Decoding α} {encode : α → Value} {xs : List α}
    (h : ∀ x ∈ xs, decode (encode x) = .ok x) : (xs.map encode).mapM decode = .ok xs := by
  induction xs with
  | nil => rfl
  | cons x xs ih =>
    rw [List.map_cons, List.mapM_cons, h x List.mem_cons_self,
      ih fun y hy => h y (List.mem_cons_of_mem x hy)]
    rfl

end Btt
