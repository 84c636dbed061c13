import Beagle.Proofs.PlainSketch

/-!
The constant that holds the name of a unit.  A name is written byte by byte, and what is written can be
decoded again: nothing is lost, the declared size is that of the decoded bytes, and no two names get the
same global name.
-/

namespace Beagle

namespace Text

def hexValue? (digit : Char) : Option Nat :=
  "0123456789ABCDEF".toList.idxOf? digit.toUpper

def escapedByte? (high low : Char) : Option UInt8 :=
  (hexValue? high).bind fun high => (hexValue? low).map fun low => .ofNat (16 * high + low)

/-- The bytes of a constant.  Two digits behind a backslash stand for a byte, and every other character
for itself. -/
def unescapeBytes : List Char → List UInt8
  | [] => []
  | '\\' :: high :: low :: rest =>
    match escapedByte? high low with
    | some byte => byte :: unescapeBytes rest
    | none => String.utf8EncodeChar '\\' ++ unescapeBytes (high :: low :: rest)
  | char :: rest => String.utf8EncodeChar char ++ unescapeBytes rest

theorem unescapeBytes_plain {char : Char} (other : char ≠ '\\') (rest : List Char) :
    unescapeBytes (char :: rest) = String.utf8EncodeChar char ++ unescapeBytes rest := by
  rw [unescapeBytes]
  rintro high low others rfl
  exact absurd rfl other

theorem hexValue?_hexDigit : ∀ value < 16, hexValue? (hexDigit value) = some value := by
  decide

theorem escapedByte?_hexDigit (byte : UInt8) :
    escapedByte? (hexDigit (byte.toNat / 16)) (hexDigit (byte.toNat % 16)) = some byte := by
  have bound := byte.toNat_lt
  have whole : 16 * (byte.toNat / 16) + byte.toNat % 16 = byte.toNat := Nat.div_add_mod ..
  rw [escapedByte?, hexValue?_hexDigit _ (by omega), hexValue?_hexDigit _ (by omega), Option.bind_some,
    Option.map_some, whole, UInt8.ofNat_toNat]

theorem standsForItself_iff {byte : UInt8} : standsForItself byte ↔
    0x20 ≤ byte.toNat ∧ byte.toNat < 0x7f ∧ byte.toNat ≠ 0x22 ∧ byte.toNat ≠ 0x5c := by
  simp [standsForItself, UInt8.le_iff_toNat_le, UInt8.lt_iff_toNat_lt, ← UInt8.toNat_inj, and_assoc]

def Quotable (char : Char) : Prop :=
  0x20 ≤ char.toNat ∧ char.toNat < 0x7f ∧ char ≠ '"'

instance : DecidablePred Quotable :=
  fun _ => inferInstanceAs (Decidable (_ ∧ _))

theorem quotable_hexDigit : ∀ value < 16, Quotable (hexDigit value) := by
  decide

theorem toNat_charOfByte (byte : UInt8) : (Char.ofNat byte.toNat).toNat = byte.toNat := by
  have valid : byte.toNat.isValidChar := by
    have bound := byte.toNat_lt
    exact .inl (by omega)
  rw [Char.ofNat, dif_pos valid]
  rfl

theorem quotable_of_mem_escapeByte {byte : UInt8} {char : Char} (member : char ∈ escapeByte byte) :
    Quotable char := by
  have bound := byte.toNat_lt
  unfold escapeByte at member
  split at member
  · rename_i itself
    obtain rfl := List.mem_singleton.mp member
    obtain ⟨low, high, notQuote, _⟩ := standsForItself_iff.mp itself
    rw [← toNat_charOfByte] at low high notQuote
    refine ⟨low, high, fun quote => notQuote ?_⟩
    rw [quote]
    rfl
  · simp only [List.mem_cons, List.not_mem_nil, or_false] at member
    rcases member with rfl | rfl | rfl
    · decide
    · exact quotable_hexDigit _ (by omega)
    · exact quotable_hexDigit _ (by omega)

theorem quotable_of_mem_escapeBytes {text : String} {char : Char}
    (member : char ∈ (escapeBytes text).toList) : Quotable char := by
  rw [escapeBytes, String.toList_ofList, List.mem_flatMap] at member
  obtain ⟨byte, _, isWritten⟩ := member
  exact quotable_of_mem_escapeByte isWritten

theorem unescapeBytes_escapeByte (byte : UInt8) (rest : List Char) :
    unescapeBytes (escapeByte byte ++ rest) = byte :: unescapeBytes rest := by
  unfold escapeByte
  split
  · rename_i itself
    have same := toNat_charOfByte byte
    obtain ⟨_, high, _, notSlash⟩ := standsForItself_iff.mp itself
    have other : Char.ofNat byte.toNat ≠ '\\' := by
      intro slash
      refine notSlash ?_
      rw [← same, slash]
      rfl
    have small : (Char.ofNat byte.toNat).utf8Size = 1 := by
      rw [Char.utf8Size_eq_one_iff, UInt32.le_iff_toNat_le]
      change (Char.ofNat byte.toNat).toNat ≤ 127
      omega
    have coded : (Char.ofNat byte.toNat).val.toUInt8 = byte := by
      rw [← UInt8.toNat_inj, UInt32.toNat_toUInt8]
      change (Char.ofNat byte.toNat).toNat % 2 ^ 8 = byte.toNat
      rw [same, Nat.mod_eq_of_lt byte.toNat_lt]
    rw [List.singleton_append, unescapeBytes_plain other, String.utf8EncodeChar_eq_singleton small, coded,
      List.singleton_append]
  · rw [List.cons_append, List.cons_append, List.singleton_append, unescapeBytes]
    rw [escapedByte?_hexDigit]

theorem unescapeBytes_flatMap (written : List UInt8) (rest : List Char) :
    unescapeBytes (written.flatMap escapeByte ++ rest) = written ++ unescapeBytes rest := by
  induction written with
  | nil => rfl
  | cons byte written ih =>
      rw [List.flatMap_cons, List.append_assoc, unescapeBytes_escapeByte, ih, List.cons_append]

theorem unescapeBytes_escapeBytes (text : String) (rest : List Char) :
    unescapeBytes ((escapeBytes text).toList ++ rest) = bytes text ++ unescapeBytes rest := by
  rw [escapeBytes, String.toList_ofList, unescapeBytes_flatMap]

theorem bytes_injective : Function.Injective bytes := by
  intro first second same
  rw [bytes, bytes, Array.toList_inj, String.toUTF8_eq_toByteArray, String.toUTF8_eq_toByteArray] at same
  exact String.toByteArray_inj.mp (ByteArray.ext same)

theorem escapeBytes_injective : Function.Injective escapeBytes := by
  intro first second same
  have decoded := unescapeBytes_escapeBytes first []
  rw [same, unescapeBytes_escapeBytes] at decoded
  exact bytes_injective (by simpa [unescapeBytes] using decoded.symm)

theorem length_bytes (text : String) : (bytes text).length = text.utf8ByteSize := by
  rw [bytes, Array.length_toList, String.toUTF8_eq_toByteArray]
  exact String.size_toByteArray

end Text

namespace Sketch

theorem globalName_injective : Function.Injective globalName := by
  -- A bare name has no quotes, so that no quoted name is mistaken for one.
  have apart {bare other : String} (isBare : bare.toList.all isBareChar) :
      "@" ++ bare ≠ "@\"" ++ Text.escapeBytes other ++ "\"" := by
    intro same
    have chars := congrArg String.toList same
    simp only [String.toList_append] at chars
    have rest : bare.toList = '"' :: ((Text.escapeBytes other).toList ++ ['"']) :=
      (List.cons.inj chars).2
    simp [rest, isBareChar] at isBare
  intro first second same
  unfold globalName at same
  split at same <;> split at same
  · exact (String.append_right_inj _).mp same
  · rename_i isBare _
    exact absurd same (apart isBare)
  · rename_i isBare
    exact absurd same.symm (apart isBare)
  · have inner := (String.append_left_inj _).mp same
    exact Text.escapeBytes_injective ((String.append_right_inj _).mp inner)

theorem prefix_foldl_walk (unit : SourceUnit) (nodes : List Node) (written : List Fragment) :
    written <+: nodes.foldl (fun written node => node.walk (visitor unit) written) written := by
  induction nodes using Node.forest_induct generalizing written with
  | nil => exact List.prefix_rfl
  | cons node nodes below others =>
      have entered : written <+: ((visitor unit).enter node written).2 := by
        cases node <;> simp [visitor]
      have left (written : List Fragment) : written <+: (visitor unit).leave node written := by
        cases node <;> simp [visitor]
      have walked : written <+: node.walk (visitor unit) written := by
        rw [Node.walk_eq]
        refine entered.trans (List.IsPrefix.trans ?_ (left _))
        split
        · exact below _
        · exact List.prefix_rfl
      exact walked.trans (others _)

theorem sketch_starts (unit : SourceUnit) : ∃ rest, unit.sketch =
    s!"; module '{unit.moduleName}'" ++ "\n" ++ moduleConstant unit.moduleName ++ "\n" ++ rest := by
  obtain ⟨more, written⟩ := prefix_foldl_walk unit (Node.unit unit).children (moduleLines unit.moduleName)
  have walked : (Node.unit unit).walk (visitor unit) [] = moduleLines unit.moduleName ++ more := by
    rw [Node.walk_eq, written]
    rfl
  refine ⟨Fragment.renderAll more, ?_⟩
  rw [SourceUnit.sketch, walked, renderAll_append]
  simp [moduleLines, moduleConstant, Fragment.renderAll, Fragment.render, String.append_assoc]

end Sketch

/-- What is written for a text is printable, has no quotes and decodes to the bytes of the text; no two
global names are the same; and in every sketch the constant that holds the name of the unit decodes to as
many bytes as its type declares, the zero at its end included. -/
theorem module_constant_exact :
    (∀ text, Text.unescapeBytes (Text.escapeBytes text).toList = Text.bytes text ∧
      ∀ char ∈ (Text.escapeBytes text).toList, Text.Quotable char) ∧
    (∀ first second, Sketch.globalName first = Sketch.globalName second → first = second) ∧
    ∀ unit : SourceUnit, ∃ (count : Nat) (constant rest : String),
      unit.sketch = s!"; module '{unit.moduleName}'" ++ "\n" ++
        Sketch.globalName (".module." ++ unit.moduleName) ++ " = private constant [" ++ toString count ++
        " x i8] c\"" ++ constant ++ "\"\n" ++ rest ∧
      (∀ char ∈ constant.toList, Text.Quotable char) ∧
      Text.unescapeBytes constant.toList = Text.bytes unit.moduleName ++ [0] ∧
      (Text.unescapeBytes constant.toList).length = count := by
  refine ⟨fun text => ⟨?_, fun _ => Text.quotable_of_mem_escapeBytes⟩, ?_, fun unit => ?_⟩
  · simpa [Text.unescapeBytes] using Text.unescapeBytes_escapeBytes text []
  · exact fun _ _ same => Sketch.globalName_injective same
  · let name := unit.moduleName
    obtain ⟨rest, starts⟩ := Sketch.sketch_starts unit
    have decoded : Text.unescapeBytes (Text.escapeBytes name ++ "\\00").toList =
        Text.bytes name ++ [0] := by
      rw [String.toList_append, Text.unescapeBytes_escapeBytes]
      rfl
    refine ⟨name.utf8ByteSize + 1, Text.escapeBytes name ++ "\\00", rest, ?_, ?_, decoded, ?_⟩
    · rw [starts, Sketch.moduleConstant]
      simp only [String.append_assoc]
      rfl
    · intro char member
      rw [String.toList_append, List.mem_append] at member
      rcases member with inName | zero
      · exact Text.quotable_of_mem_escapeBytes inName
      · exact @Text.quotable_of_mem_escapeByte 0 char zero
    · rw [decoded, List.length_append, Text.length_bytes]
      rfl

theorem module_constant_exact_example :
    Text.unescapeBytes (Text.escapeBytes "é\"").toList = [0xc3, 0xa9, 0x22] ∧ Text.Quotable '\\' ∧
    Sketch.globalName "é" ≠ Sketch.globalName "\\C3\\A9" ∧
    ∃ constant rest, (SourceUnit.mk (.fresh 0 .start) "é.bgl" none [] []).sketch =
      "; module 'é'\n@\".module.\\C3\\A9\" = private constant [3 x i8] c\"" ++ constant ++ "\"\n" ++
        rest := by
  obtain ⟨escapes, names, constants⟩ := module_constant_exact
  have written : '\\' ∈ (Text.escapeBytes "é\"").toList := by decide
  refine ⟨(escapes "é\"").1, (escapes "é\"").2 '\\' written, ?_, ?_⟩
  · intro same
    exact absurd (names _ _ same) (by decide)
  · obtain ⟨count, constant, rest, starts, _, decoded, length⟩ :=
      constants (SourceUnit.mk (.fresh 0 .start) "é.bgl" none [] [])
    rw [decoded] at length
    subst length
    exact ⟨constant, rest, starts⟩

end Beagle
