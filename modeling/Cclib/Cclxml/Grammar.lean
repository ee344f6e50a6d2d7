import Mathlib.Tactic.Common
import Cclib.Lib.Utf8
import Cclib.Cclxml.Node

/-!
# `Cclxml.Grammar` — well-formed XML texts

The rules of XML 1.0, by their names there, for texts in UTF-8 without an XML declaration and without a document
type declaration; a text that starts with the tag of an element has neither. `WellFormed s k` says that `s` is a
well-formed document whose elements are `k` (`Skeleton`).

All that stands between names, texts and values is ASCII. So the rules are about bytes, and `XmlChars` says once
of the whole text that these are characters.
-/

namespace Cclib
namespace Cclxml

/-- The number is in one of the ranges. -/
def InRanges (ranges : List (Nat × Nat)) (n : Nat) : Prop := ∃ r ∈ ranges, r.1 ≤ n ∧ n ≤ r.2

instance (ranges : List (Nat × Nat)) : DecidablePred (InRanges ranges) :=
  fun n => inferInstanceAs (Decidable (∃ r ∈ ranges, r.1 ≤ n ∧ n ≤ r.2))

/-- `Char` -/
def charRanges : List (Nat × Nat) :=
  [(0x9, 0x9), (0xa, 0xa), (0xd, 0xd), (0x20, 0xd7ff), (0xe000, 0xfffd), (0x10000, 0x10ffff)]

/-- `NameStartChar` -/
def nameStartRanges : List (Nat × Nat) :=
  [(0x3a, 0x3a), (0x41, 0x5a), (0x5f, 0x5f), (0x61, 0x7a), (0xc0, 0xd6), (0xd8, 0xf6), (0xf8, 0x2ff), (0x370, 0x37d),
    (0x37f, 0x1fff), (0x200c, 0x200d), (0x2070, 0x218f), (0x2c00, 0x2fef), (0x3001, 0xd7ff), (0xf900, 0xfdcf),
    (0xfdf0, 0xfffd), (0x10000, 0xeffff)]

/-- `NameChar` -/
def nameRanges : List (Nat × Nat) :=
  nameStartRanges ++ [(0x2d, 0x2d), (0x2e, 0x2e), (0x30, 0x39), (0xb7, 0xb7), (0x300, 0x36f), (0x203f, 0x2040)]

/-- `Char*` -/
def XmlChars (s : StringT) : Prop := ∃ cs : List Char, (∀ c ∈ cs, InRanges charRanges c.toNat) ∧ s = Utf8.encode cs

/-- `Name ::= NameStartChar (NameChar)*` -/
def IsName (s : StringT) : Prop := ∃ (c : Char) (cs : List Char), InRanges nameStartRanges c.toNat ∧
  (∀ d ∈ cs, InRanges nameRanges d.toNat) ∧ s = Utf8.encode (c :: cs)

/-- `S?`, with `S ::= (#x20 | #x9 | #xD | #xA)+` -/
def Space (s : StringT) : Prop := ∀ b ∈ s, b = 0x20 ∨ b = 0x09 ∨ b = 0x0d ∨ b = 0x0a

instance : DecidablePred Space :=
  fun s => inferInstanceAs (Decidable (∀ b ∈ s, b = 0x20 ∨ b = 0x09 ∨ b = 0x0d ∨ b = 0x0a))

/-- `CharData ::= [^<&]* - ([^<&]* ']]>' [^<&]*)` -/
def CharData (s : StringT) : Prop := (∀ b ∈ s, b ≠ 0x3c ∧ b ≠ 0x26) ∧ ¬ [0x5d, 0x5d, 0x3e] <:+: s

/-- The number that digits stand for. -/
def digitsValue (base : Nat) (digit : UInt8 → Option Nat) (ds : StringT) : Option Nat :=
  ds.foldlM (fun n d => (digit d).map (base * n + ·)) 0

/-- `[0-9]` -/
def decimalDigit (d : UInt8) : Option Nat := if 0x30 ≤ d ∧ d ≤ 0x39 then some (d.toNat - 0x30) else none

/-- `[0-9a-fA-F]` -/
def hexDigit (d : UInt8) : Option Nat :=
  if 0x30 ≤ d ∧ d ≤ 0x39 then some (d.toNat - 0x30)
  else if 0x61 ≤ d ∧ d ≤ 0x66 then some (d.toNat - 0x61 + 10)
  else if 0x41 ≤ d ∧ d ≤ 0x46 then some (d.toNat - 0x41 + 10)
  else none

/-- The entities that are declared in every document: `lt`, `gt`, `amp`, `apos` and `quot`. -/
def predefined : List StringT :=
  [[0x6c, 0x74], [0x67, 0x74], [0x61, 0x6d, 0x70], [0x61, 0x70, 0x6f, 0x73], [0x71, 0x75, 0x6f, 0x74]]

/-- `Reference ::= EntityRef | CharRef`; a character reference is to a `Char`. -/
inductive Reference : StringT → Prop
  | entity {name : StringT} (h : name ∈ predefined) : Reference ([0x26] ++ name ++ [0x3b])
  | decimal {ds : StringT} {n : Nat} (hds : ds ≠ []) (hn : digitsValue 10 decimalDigit ds = some n)
      (hlegal : InRanges charRanges n) : Reference ([0x26, 0x23] ++ ds ++ [0x3b])
  | hex {ds : StringT} {n : Nat} (hds : ds ≠ []) (hn : digitsValue 16 hexDigit ds = some n)
      (hlegal : InRanges charRanges n) : Reference ([0x26, 0x23, 0x78] ++ ds ++ [0x3b])

/-- `AttValue` between two quotes `q`: `([^<&q] | Reference)*` -/
inductive AttChars (q : UInt8) : StringT → Prop
  | nil : AttChars q []
  | char {b : UInt8} {s : StringT} (hq : b ≠ q) (hlt : b ≠ 0x3c) (hamp : b ≠ 0x26) (h : AttChars q s) :
      AttChars q (b :: s)
  | reference {r s : StringT} (hr : Reference r) (h : AttChars q s) : AttChars q (r ++ s)

/-- `(S Attribute)*`, with `Attribute ::= Name Eq AttValue` and `Eq ::= S? '=' S?`, and the names. -/
inductive Attributes : StringT → List StringT → Prop
  | nil : Attributes [] []
  | cons {sp n sp₁ sp₂ v s : StringT} {q : UInt8} {names : List StringT} (hne : sp ≠ []) (hsp : Space sp)
      (hn : IsName n) (h₁ : Space sp₁) (h₂ : Space sp₂) (hq : q = 0x22 ∨ q = 0x27) (hv : AttChars q v)
      (h : Attributes s names) :
      Attributes (sp ++ n ++ sp₁ ++ [0x3d] ++ sp₂ ++ [q] ++ v ++ [q] ++ s) (n :: names)

/-- `Comment ::= '<!--' ((Char - '-') | ('-' (Char - '-')))* '-->'` -/
def Comment (s : StringT) : Prop := ∃ d : StringT, ¬ [0x2d, 0x2d] <:+: d ++ [0x2d] ∧
  s = [0x3c, 0x21, 0x2d, 0x2d] ++ d ++ [0x2d, 0x2d, 0x3e]

/-- `PITarget ::= Name - (('X' | 'x') ('M' | 'm') ('L' | 'l'))` -/
def PITarget (s : StringT) : Prop := IsName s ∧
  ¬ ∃ x m l, s = [x, m, l] ∧ (x = 0x58 ∨ x = 0x78) ∧ (m = 0x4d ∨ m = 0x6d) ∧ (l = 0x4c ∨ l = 0x6c)

/-- `PI ::= '<?' PITarget (S (Char* - (Char* '?>' Char*)))? '?>'` -/
def ProcessingInstruction (s : StringT) : Prop := ∃ target sp d : StringT, PITarget target ∧ Space sp ∧
  (sp = [] → d = []) ∧ ¬ [0x3f, 0x3e] <:+: d ∧ s = [0x3c, 0x3f] ++ target ++ sp ++ d ++ [0x3f, 0x3e]

/-- `CDSect ::= '<![CDATA[' (Char* - (Char* ']]>' Char*)) ']]>'` -/
def CDSect (s : StringT) : Prop := ∃ d : StringT, ¬ [0x5d, 0x5d, 0x3e] <:+: d ∧
  s = [0x3c, 0x21, 0x5b, 0x43, 0x44, 0x41, 0x54, 0x41, 0x5b] ++ d ++ [0x5d, 0x5d, 0x3e]

/-- `Misc*`, with `Misc ::= Comment | PI | S` -/
inductive Miscs : StringT → Prop
  | nil : Miscs []
  | cons {m s : StringT} (hm : Comment m ∨ ProcessingInstruction m ∨ m ≠ [] ∧ Space m) (h : Miscs s) : Miscs (m ++ s)

/-- The elements of a document: names, the names of the attributes, and what is in them. -/
inductive Skeleton where
  | node (name : StringT) (attrs : List StringT) (children : List Skeleton)

mutual
/-- `element ::= EmptyElemTag | STag content ETag`. No attribute name appears twice. -/
inductive IsElement : StringT → Skeleton → Prop
  | empty {n as sp : StringT} {names : List StringT} (hn : IsName n) (has : Attributes as names) (hnd : names.Nodup)
      (hsp : Space sp) : IsElement ([0x3c] ++ n ++ as ++ sp ++ [0x2f, 0x3e]) (.node n names [])
  | tags {n as sp c sp' : StringT} {names : List StringT} {ks : List Skeleton} (hn : IsName n)
      (has : Attributes as names) (hnd : names.Nodup) (hsp : Space sp) (hc : IsContent c ks) (hsp' : Space sp') :
      IsElement ([0x3c] ++ n ++ as ++ sp ++ [0x3e] ++ c ++ [0x3c, 0x2f] ++ n ++ sp' ++ [0x3e]) (.node n names ks)

/-- `content ::= CharData? ((element | Reference | CDSect | PI | Comment) CharData?)*` -/
inductive IsContent : StringT → List Skeleton → Prop
  | chars {d : StringT} (hd : CharData d) : IsContent d []
  | element {d e c : StringT} {k : Skeleton} {ks : List Skeleton} (hd : CharData d) (he : IsElement e k)
      (hc : IsContent c ks) : IsContent (d ++ e ++ c) (k :: ks)
  | other {d o c : StringT} {ks : List Skeleton} (hd : CharData d)
      (ho : Reference o ∨ CDSect o ∨ ProcessingInstruction o ∨ Comment o) (hc : IsContent c ks) :
      IsContent (d ++ o ++ c) ks
end

/-- `document ::= Misc* element Misc*` -/
inductive IsDocument : StringT → Skeleton → Prop
  | mk {p e m : StringT} {k : Skeleton} (hp : Miscs p) (he : IsElement e k) (hm : Miscs m) : IsDocument (p ++ e ++ m) k

/-- A well-formed document with these elements. -/
def WellFormed (s : StringT) (k : Skeleton) : Prop := XmlChars s ∧ IsDocument s k

/-! ## Characters -/

/-- An ASCII character that a text may have. -/
def AsciiChar (b : UInt8) : Prop := b.toNat < 0x80 ∧ InRanges charRanges b.toNat

instance : DecidablePred AsciiChar := fun b => inferInstanceAs (Decidable (b.toNat < 0x80 ∧ InRanges charRanges b.toNat))

theorem xmlChars_nil : XmlChars [] := ⟨[], by simp, rfl⟩

/-- Line feeds and the printable ASCII characters are characters. -/
theorem inCharRanges_ascii {cs : List Char} (h : ∀ c ∈ cs, c.toNat = 0xa ∨ 0x20 ≤ c.toNat ∧ c.toNat < 0x80) :
    ∀ c ∈ cs, InRanges charRanges c.toNat := by
  intro c hc
  rcases h c hc with hfeed | ⟨hle, hlt⟩
  · exact ⟨(0xa, 0xa), by decide, by omega, by omega⟩
  · exact ⟨(0x20, 0xd7ff), by decide, by omega, by omega⟩

theorem XmlChars.append {s s' : StringT} (h : XmlChars s) (h' : XmlChars s') : XmlChars (s ++ s') := by
  obtain ⟨cs, hcs, rfl⟩ := h
  obtain ⟨cs', hcs', rfl⟩ := h'
  exact ⟨cs ++ cs', List.forall_mem_append.mpr ⟨hcs, hcs'⟩, (Utf8.encode_append cs cs').symm⟩

/-- A text is made of characters when what is before an ASCII character and what is behind it are. -/
theorem xmlChars_split {b : UInt8} (hb : AsciiChar b) {u v : StringT} :
    XmlChars (u ++ b :: v) ↔ XmlChars u ∧ XmlChars v := by
  constructor
  · rintro ⟨cs, hcs, h⟩
    obtain ⟨cs₁, c, cs₂, rfl, rfl, rfl, -⟩ := Utf8.encode_split h.symm hb.1
    obtain ⟨h₁, h₂⟩ := List.forall_mem_append.mp hcs
    exact ⟨⟨cs₁, h₁, rfl⟩, ⟨cs₂, (List.forall_mem_cons.mp h₂).2, rfl⟩⟩
  · rintro ⟨hu, hv⟩
    have hnat : (Char.ofUInt8 b).toNat = b.toNat := UInt8.toNat_toUInt32 b
    have hone : XmlChars [b] := by
      refine ⟨[Char.ofUInt8 b], ?_, ?_⟩
      · rw [List.forall_mem_singleton, hnat]
        exact hb.2
      · rw [Utf8.encode_cons, Utf8.encode_nil, List.append_nil, Utf8.encodeChar_ascii (by rw [hnat]; exact hb.1), hnat,
          UInt8.ofNat_toNat]
    exact hu.append (hone.append hv)

theorem xmlChars_cons {b : UInt8} (hb : AsciiChar b) {s : StringT} : XmlChars (b :: s) ↔ XmlChars s := by
  have h := xmlChars_split hb (u := []) (v := s)
  rw [List.nil_append] at h
  rw [h, and_iff_right xmlChars_nil]

/-! ## Names -/

/-- The bytes that end a name, and others that are not in one. -/
def EndsName (b : UInt8) : Prop := b ∈ ([0x09, 0x0a, 0x0d, 0x20, 0x21, 0x22, 0x26, 0x2f, 0x3c, 0x3d, 0x3e, 0x3f] : StringT)

instance : DecidablePred EndsName := fun b => inferInstanceAs (Decidable (b ∈ _))

theorem nameRanges_le {n : Nat} (h : InRanges nameRanges n) : InRanges charRanges n := by
  obtain ⟨r, hr, hle⟩ := h
  have hall : ∀ r ∈ nameRanges, ∃ r' ∈ charRanges, r'.1 ≤ r.1 ∧ r.2 ≤ r'.2 := by decide
  obtain ⟨r', hr', hsub⟩ := hall r hr
  exact ⟨r', hr', Nat.le_trans hsub.1 hle.1, Nat.le_trans hle.2 hsub.2⟩

theorem IsName.chars {n : StringT} (h : IsName n) : ∃ cs : List Char, cs ≠ [] ∧ (∀ c ∈ cs, InRanges nameRanges c.toNat) ∧
    n = Utf8.encode cs := by
  obtain ⟨c, cs, hc, hcs, rfl⟩ := h
  obtain ⟨r, hr, hle⟩ := hc
  exact ⟨c :: cs, List.cons_ne_nil c cs, List.forall_mem_cons.mpr ⟨⟨r, List.mem_append_left _ hr, hle⟩, hcs⟩, rfl⟩

theorem IsName.xmlChars {n : StringT} (h : IsName n) : XmlChars n := by
  obtain ⟨cs, -, hcs, rfl⟩ := h.chars
  exact ⟨cs, fun c hc => nameRanges_le (hcs c hc), rfl⟩

theorem IsName.ne_nil {n : StringT} (h : IsName n) : n ≠ [] := by
  obtain ⟨c, cs, -, -, rfl⟩ := h
  rw [Utf8.encode_cons]
  exact List.append_ne_nil_of_left_ne_nil String.utf8EncodeChar_ne_nil _

/-- No byte of a name ends a name. -/
theorem IsName.not_endsName {n : StringT} (h : IsName n) : ∀ b ∈ n, ¬ EndsName b := by
  obtain ⟨cs, -, hcs, rfl⟩ := h.chars
  intro b hb hends
  obtain ⟨c, hc, hb⟩ := List.mem_flatMap.mp hb
  have hall : ∀ b ∈ ([0x09, 0x0a, 0x0d, 0x20, 0x21, 0x22, 0x26, 0x2f, 0x3c, 0x3d, 0x3e, 0x3f] : StringT),
      b.toNat < 0x80 ∧ ¬ InRanges nameRanges b.toNat := by decide +kernel
  obtain ⟨hlt, hnot⟩ := hall b hends
  apply hnot
  rw [← (Utf8.byte_mem hb hlt).2]
  exact hcs c hc

end Cclxml
end Cclib
