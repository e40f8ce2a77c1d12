import BookFilerHttp.OrdMapProofs
import BookFilerHttp.HttpUriCodecProofs

/-! # Query strings: `QueryImpl`

    A query is held twice, as the encoded string and as a map of decoded
    parameters.  `setQuery` assigns the map and flattens it; `setEncodedQuery`
    stores the string and INSERTS its parameters into whatever the map held.

    The headline is `generateQueryMap_flatten`: the parameters read off a
    flattened non-empty map are exactly the map.  Two facts carry it: no
    separator survives encoding, and inserting the entries of a map into the
    empty map rebuilds it. -/

namespace HttpQuery

open ByteString HttpUriCodec

/-- Decoded parameters, in the order of a `std::map` of strings. -/
abbrev QueryMap := OrdMap.Map Bytes Bytes

structure QueryImpl where
  queryMap : QueryMap
  queryEncodedStr : Bytes

/-- A fresh `QueryImpl`; its one-string constructor ignores the string. -/
def QueryImpl.fresh : QueryImpl := ⟨OrdMap.empty, []⟩

/-- `reservedCharStr` of `flattenQueryMap`. -/
def reservedCharStr : Bytes := lit "&="

/-- One map entry in encoded form, `key=val`. -/
def encodeField (field : Bytes × Bytes) : Bytes :=
  (uriEncode field.1 reservedCharStr []).2 ++ lit "="
    ++ (uriEncode field.2 reservedCharStr []).2

/-- The loop of `flattenQueryMap`: an ampersand after every field but the
    last. -/
def flattenFields : List (Bytes × Bytes) → Bytes
  | [] => []
  | [field] => encodeField field
  | field :: rest => encodeField field ++ lit "&" ++ flattenFields rest

/-- `flattenQueryMap` of the stored map. -/
def flattenQueryMap (m : QueryMap) : Bytes := flattenFields m.entries

/-- One `&`-separated part, decoded.  The return codes of the decoder are not
    looked at, and a part without `=` is its own value. -/
def decodePart (queryPart : Bytes) : Bytes × Bytes :=
  let queryPartPos := findFirstOf '='.toUInt8 queryPart
  ((uriDecode (substrTo queryPart queryPartPos) []).2,
    (uriDecode (substrFrom queryPart queryPartPos) []).2)

/-- `generateQueryMap`: split at every `&`, decode, insert. -/
def generateQueryMap (m : QueryMap) (queryEncodedStr : Bytes) : QueryMap :=
  OrdMap.insertAll
    ((queryEncodedStr.splitOn '&'.toUInt8).map decodePart) m

namespace QueryImpl

def setQuery (_q : QueryImpl) (m : QueryMap) : Int × QueryImpl :=
  (0, ⟨m, flattenQueryMap m⟩)

/-- The overload that takes a JSON document does nothing. -/
def setQueryDoc (q : QueryImpl) : Int × QueryImpl := (0, q)

def setEncodedQuery (q : QueryImpl) (queryStr : Bytes) : Int × QueryImpl :=
  (0, ⟨generateQueryMap q.queryMap queryStr, queryStr⟩)

def getEncodedQuery (q : QueryImpl) : Bytes := q.queryEncodedStr

def getQuery (q : QueryImpl) (key : Bytes) : Option Bytes :=
  OrdMap.find key q.queryMap

end QueryImpl

/-! ## Flattening and splitting are inverse -/

theorem encodeField_eq (field : Bytes × Bytes) :
    encodeField field = encoded reservedCharStr field.1
      ++ '='.toUInt8 :: encoded reservedCharStr field.2 := by
  rw [encodeField, uriEncode_eq, uriEncode_eq, List.append_assoc]
  rfl

/-- Flattening joins the encoded fields with ampersands. -/
theorem flattenFields_eq (fields : List (Bytes × Bytes)) :
    flattenFields fields
      = ['&'.toUInt8].intercalate (fields.map encodeField) := by
  induction fields with
  | nil => rfl
  | cons field rest ih =>
      cases rest with
      | nil =>
          show encodeField field = _
          simp [List.intercalate]
      | cons field' rest' =>
          rw [flattenFields, ih]
          · simp [List.intercalate, lit]
          · intro h
            cases h

/-- A separator of the flattened form is not an encoded character. -/
theorem separator_not_mem {x : UInt8} (hx : x ∈ reservedCharStr) (s : Bytes) :
    x ∉ encoded reservedCharStr s := by
  have hsep : ∀ y ∈ reservedCharStr,
      isUnreserved y = false ∧ y ≠ '%'.toUInt8 := by decide +kernel
  exact not_mem_encoded hx (hsep x hx).1 (hsep x hx).2

/-- An encoded field holds no ampersand. -/
theorem amp_not_mem_encodeField (field : Bytes × Bytes) :
    '&'.toUInt8 ∉ encodeField field := by
  have hamp : '&'.toUInt8 ∈ reservedCharStr := by decide
  rw [encodeField_eq]
  intro h
  rcases List.mem_append.mp h with hk | hv
  · exact separator_not_mem hamp _ hk
  · rcases List.mem_cons.mp hv with heq | hv
    · exact absurd heq (by decide)
    · exact separator_not_mem hamp _ hv

/-- Decoding an encoded field gives the field back. -/
theorem decodePart_encodeField (field : Bytes × Bytes) :
    decodePart (encodeField field) = field := by
  have heq : '='.toUInt8 ∈ reservedCharStr := by decide
  obtain ⟨hkey, hval⟩ := substr_append (encoded reservedCharStr field.2)
    (separator_not_mem heq field.1)
  rw [decodePart, encodeField_eq]
  simp only [hkey, hval, uriDecode_encoded, List.nil_append]

/-- Splitting a flattened non-empty list of fields gives the encoded fields. -/
theorem splitOn_flattenFields {fields : List (Bytes × Bytes)}
    (h : fields ≠ []) :
    (flattenFields fields).splitOn '&'.toUInt8 = fields.map encodeField := by
  rw [flattenFields_eq]
  refine List.splitOn_intercalate _ ?_ ?_
  · intro part hpart
    obtain ⟨field, -, rfl⟩ := List.mem_map.mp hpart
    exact amp_not_mem_encodeField field
  · exact fun hnil => h (List.map_eq_nil_iff.mp hnil)

/-- **FLATTEN, THEN READ BACK**: on a fresh query the parameters of a flattened
    non-empty map are the map. -/
theorem generateQueryMap_flatten {m : QueryMap} (h : m.entries ≠ []) :
    generateQueryMap OrdMap.empty (flattenQueryMap m) = m := by
  rw [generateQueryMap, flattenQueryMap, splitOn_flattenFields h, List.map_map]
  have hid : m.entries.map (decodePart ∘ encodeField) = m.entries := by
    rw [List.map_congr_left (g := id)]
    · exact List.map_id _
    · intro field _
      exact decodePart_encodeField field
  rw [hid]
  exact OrdMap.insertAll_entries m

/-- A query that is set and one that is read from its flattened form answer
    every lookup alike. -/
theorem getQuery_setEncodedQuery_flatten {m : QueryMap} (h : m.entries ≠ [])
    (key : Bytes) :
    (QueryImpl.fresh.setEncodedQuery (flattenQueryMap m)).2.getQuery key
      = OrdMap.find key m := by
  show OrdMap.find key (generateQueryMap OrdMap.empty (flattenQueryMap m)) = _
  rw [generateQueryMap_flatten h]

end HttpQuery
