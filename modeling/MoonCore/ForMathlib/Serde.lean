import MoonCore.ForMathlib.MsgPackWriter

/-!
# The forms of types in MessagePack

A `Codec` says which values the elements of a type are written as, and which values are read as
them. Codecs are put together by the rules serde documents for what it derives:

* `Fields`, the fields of a struct: found by name, refused where a name is there twice, and refused
  where one is missing unless it has a default. `Fields.record` is a struct as a map;
* `Variants`, the variants of an enum: `Variants.external` is one as its name, or as a map from its
  name to what it holds, and `Variants.adjacent` as a map of its name and what it holds.

A codec is a specification: a value it does not decode may still be read, such as a struct with
fields nobody knows. Each rule comes with its proof that what is written reads back, so that a codec
put together by the rules needs none.
-/

namespace MoonCore

open MsgPack

variable {α β : Type*}

/-! ### Fields -/

/-- A field without a default. -/
def field (decode : Value → Option α) (name : String) (entries : List (Value × Value)) :
    Option α :=
  match Value.under name entries with
  | [value] => decode value
  | _ => none

/-- A field with a default. -/
def fieldOr (default : α) (decode : Value → Option α) (name : String)
    (entries : List (Value × Value)) : Option α :=
  match Value.under name entries with
  | [] => some default
  | [value] => decode value
  | _ => none

/-- An unsigned integer below a bound. -/
def natBelow (bound : ℕ) : Value → Option ℕ
  | .integer n => if 0 ≤ n ∧ n < bound then some n.toNat else none
  | _ => none

@[simp]
theorem natBelow_toNat {bound n : ℕ} (h : n < bound) : natBelow bound (.integer n) = some n := by
  rw [natBelow, if_pos ⟨Int.natCast_nonneg n, Int.ofNat_lt.mpr h⟩, Int.toNat_natCast]

/-! ### Codecs -/

/-- How the values of a type are written and read. -/
structure Codec (α : Type*) where
  /-- The values the program's own type holds. -/
  Valid : α → Prop
  decidable : DecidablePred Valid
  encode : α → Value
  decode : Value → Option α
  fits : ∀ a, Valid a → (encode a).Fits
  decode_encode : ∀ a, Valid a → decode (encode a) = some a

namespace Codec

instance (codec : Codec α) : DecidablePred codec.Valid := codec.decidable

/-- A newtype is written as what it wraps. -/
def conv (codec : Codec α) (wrap : α → β) (unwrap : β → α) (h : ∀ b, wrap (unwrap b) = b) :
    Codec β where
  Valid b := codec.Valid (unwrap b)
  decidable b := codec.decidable (unwrap b)
  encode b := codec.encode (unwrap b)
  decode value := (codec.decode value).map wrap
  fits b := codec.fits (unwrap b)
  decode_encode b hb := by rw [codec.decode_encode _ hb, Option.map_some, h]

/-- Unsigned integers of up to 64 bits. -/
def nat (bound : ℕ) (h : bound ≤ 256 ^ 8) : Codec ℕ where
  Valid n := n < bound
  decidable n := n.decLt bound
  encode n := .integer n
  decode := natBelow bound
  fits n hn := .integer (by omega) (by omega)
  decode_encode _ hn := natBelow_toNat hn

/-- Signed integers of 64 bits. -/
def i64 : Codec ℤ where
  Valid n := -(256 ^ 8 / 2 : ℕ) ≤ n ∧ n < (256 ^ 8 / 2 : ℕ)
  decidable _ := inferInstance
  encode n := .integer n
  decode
    | .integer n => if -(256 ^ 8 / 2 : ℕ) ≤ n ∧ n < (256 ^ 8 / 2 : ℕ) then some n else none
    | _ => none
  fits n hn := .integer hn.1 (by omega)
  decode_encode _ hn := if_pos hn

/-- `true` and `false`. -/
def bool : Codec Bool where
  Valid _ := True
  decidable _ := instDecidableTrue
  encode b := .boolean b
  decode
    | .boolean b => some b
    | _ => none
  fits b _ := .boolean b
  decode_encode _ _ := rfl

/-- A text, whole. -/
def string : Codec String where
  Valid _ := True
  decidable _ := instDecidableTrue
  encode text := .string text
  decode := Value.text
  fits text _ := .string text
  decode_encode _ _ := rfl

theorem mapM_encode (codec : Codec α) {items : List α} (h : ∀ item ∈ items, codec.Valid item) :
    (items.map codec.encode).mapM codec.decode = some items := by
  induction items with
  | nil => rfl
  | cons item items ih =>
    obtain ⟨hitem, hitems⟩ := List.forall_mem_cons.mp h
    rw [List.map_cons, List.mapM_cons, codec.decode_encode item hitem, ih hitems]
    rfl

/-- The items, in order. -/
def list (codec : Codec α) : Codec (List α) where
  Valid items := ∀ item ∈ items, codec.Valid item
  decidable _ := inferInstance
  encode items := .array (items.map codec.encode)
  decode
    | .array values => values.mapM codec.decode
    | _ => none
  fits _ h := .array (List.forall_mem_map.mpr fun item hitem => codec.fits item (h item hitem))
  decode_encode _ h := codec.mapM_encode h

/-- `nil`, or something else. -/
def orNil (decode : Value → Option α) : Value → Option (Option α)
  | .nil => some none
  | value => (decode value).map some

/-- A value that may be missing, as `nil` or as itself. -/
def option (codec : Codec α) (h : ∀ a, codec.encode a ≠ .nil) : Codec (Option α) where
  Valid a? := ∀ a ∈ a?, codec.Valid a
  decidable _ := inferInstance
  encode a? := (a?.map codec.encode).getD .nil
  decode := orNil codec.decode
  fits
    | none, _ => .nil
    | some a, ha => codec.fits a (ha a rfl)
  decode_encode
    | none, _ => rfl
    | some a, ha => by
      rw [Option.map_some, Option.getD_some, orNil, codec.decode_encode a (ha a rfl),
        Option.map_some]
      exact h a

end Codec

/-! ### Structs -/

/-- The fields of a struct, or some of them, under these names. -/
structure Fields (names : List String) (α : Type*) where
  Valid : α → Prop
  decidable : DecidablePred Valid
  encode : α → List (Value × Value)
  decode : List (Value × Value) → Option α
  named : ∀ a, ∀ entry ∈ encode a, ∃ name ∈ names, entry.1 = .string name
  fits : ∀ a, Valid a → ∀ entry ∈ encode a, entry.2.Fits
  /-- Whatever other fields there are. -/
  decode_encode : ∀ a, Valid a → ∀ entries,
    (∀ name ∈ names, Value.under name entries = Value.under name (encode a)) →
      decode entries = some a

namespace Fields

variable {names others : List String}

theorem under_single (name : String) (value : Value) :
    Value.under name [(.string name, value)] = [value] := by
  simp [Value.under, Value.text]

theorem under_append (name : String) (front back : List (Value × Value)) :
    Value.under name (front ++ back) = Value.under name front ++ Value.under name back := by
  rw [Value.under, List.filter_append, List.map_append]
  rfl

/-- There is nothing under a name that is not a field's. -/
theorem under_eq_nil (fields : Fields names α) (a : α) {name : String} (h : name ∉ names) :
    Value.under name (fields.encode a) = [] := by
  rw [Value.under, List.map_eq_nil_iff, List.filter_eq_nil_iff]
  intro entry hentry
  obtain ⟨other, hother, hkey⟩ := fields.named a entry hentry
  rw [hkey, decide_eq_true_eq, Value.text, Option.some.injEq]
  exact fun hname => h (hname ▸ hother)

/-- A field without a default. -/
def one (name : String) (codec : Codec α) : Fields [name] α where
  Valid := codec.Valid
  decidable := codec.decidable
  encode a := [(.string name, codec.encode a)]
  decode := field codec.decode name
  named _ _ hentry :=
    ⟨name, List.mem_singleton_self name, congrArg _ (List.mem_singleton.mp hentry)⟩
  fits a ha _ hentry := List.mem_singleton.mp hentry ▸ codec.fits a ha
  decode_encode a ha entries h := by
    rw [field, h name (List.mem_singleton_self name), under_single]
    exact codec.decode_encode a ha

/-- A field with a default. -/
def oneOr (name : String) (default : α) (codec : Codec α) : Fields [name] α where
  Valid := codec.Valid
  decidable := codec.decidable
  encode a := [(.string name, codec.encode a)]
  decode := fieldOr default codec.decode name
  named _ _ hentry :=
    ⟨name, List.mem_singleton_self name, congrArg _ (List.mem_singleton.mp hentry)⟩
  fits a ha _ hentry := List.mem_singleton.mp hentry ▸ codec.fits a ha
  decode_encode a ha entries h := by
    rw [fieldOr, h name (List.mem_singleton_self name), under_single]
    exact codec.decode_encode a ha

/-- Fields, and then others. -/
def and (x : Fields names α) (y : Fields others β) (hnames : ∀ name ∈ names, name ∉ others) :
    Fields (names ++ others) (α × β) where
  Valid both := x.Valid both.1 ∧ y.Valid both.2
  decidable both := @instDecidableAnd _ _ (x.decidable both.1) (y.decidable both.2)
  encode both := x.encode both.1 ++ y.encode both.2
  decode entries := (x.decode entries).bind fun a => (y.decode entries).map fun b => (a, b)
  named both entry hentry := by
    rcases List.mem_append.mp hentry with hx | hy
    · obtain ⟨name, hname, hkey⟩ := x.named both.1 entry hx
      exact ⟨name, List.mem_append_left _ hname, hkey⟩
    · obtain ⟨name, hname, hkey⟩ := y.named both.2 entry hy
      exact ⟨name, List.mem_append_right _ hname, hkey⟩
  fits both h entry hentry :=
    (List.mem_append.mp hentry).elim (x.fits both.1 h.1 entry) (y.fits both.2 h.2 entry)
  decode_encode both hboth entries h := by
    have hx : x.decode entries = some both.1 := by
      refine x.decode_encode both.1 hboth.1 entries fun name hname => ?_
      rw [h name (List.mem_append_left _ hname), under_append,
        y.under_eq_nil both.2 (hnames name hname), List.append_nil]
    have hy : y.decode entries = some both.2 := by
      refine y.decode_encode both.2 hboth.2 entries fun name hname => ?_
      rw [h name (List.mem_append_right _ hname), under_append,
        x.under_eq_nil both.1 (fun hmem => hnames name hmem hname), List.nil_append]
    rw [hx, hy]
    rfl

/-- Fields, and then one more. -/
def more (x : Fields names α) (name : String) (codec : Codec β) (hname : name ∉ names) :
    Fields (names ++ [name]) (α × β) :=
  x.and (one name codec) fun _ hmem hother => hname (List.mem_singleton.mp hother ▸ hmem)

/-- Whether the entries of a map are fields of these names and nothing else. -/
def onlyNamed (names : List String) (entries : List (Value × Value)) : Bool :=
  entries.all fun entry => entry.1.text.any (· ∈ names)

theorem onlyNamed_encode (fields : Fields names α) (a : α) :
    onlyNamed names (fields.encode a) = true := by
  refine List.all_eq_true.mpr fun entry hentry => ?_
  obtain ⟨name, hname, hkey⟩ := fields.named a entry hentry
  rw [hkey, Value.text, Option.any_some, decide_eq_true_eq]
  exact hname

/-- A struct, as a map. -/
def record (fields : Fields names α) : Codec α where
  Valid := fields.Valid
  decidable := fields.decidable
  encode a := .map (fields.encode a)
  decode
    | .map entries => if onlyNamed names entries then fields.decode entries else none
    | _ => none
  fits a ha := by
    refine .map (fun entry hentry => ?_) (fields.fits a ha)
    obtain ⟨name, -, hkey⟩ := fields.named a entry hentry
    exact hkey ▸ .string name
  decode_encode a ha :=
    (if_pos (fields.onlyNamed_encode a)).trans (fields.decode_encode a ha _ fun _ _ => rfl)

end Fields

/-! ### Enums -/

/-- The variants of an enum, or some of them, by these names, and what each holds. -/
structure Variants (tags : List String) (α : Type*) where
  Valid : α → Prop
  decidable : DecidablePred Valid
  tag : α → String
  content : α → Option Value
  decode : String → Option Value → Option α
  tag_mem : ∀ a, tag a ∈ tags
  unknown : ∀ tag ∉ tags, ∀ content, decode tag content = none
  fits : ∀ a, Valid a → ∀ value ∈ content a, value.Fits
  decode_encode : ∀ a, Valid a → decode (tag a) (content a) = some a

namespace Variants

variable {tags others : List String}

/-- Variants that hold nothing, each once. -/
def units (all : List α) (name : α → String)
    (h : ∀ a, all.find? (fun b => name b = name a) = some a) : Variants (all.map name) α where
  Valid _ := True
  decidable _ := instDecidableTrue
  tag := name
  content _ := none
  decode
    | tag, none => all.find? fun b => name b = tag
    | _, some _ => none
  tag_mem a := List.mem_map_of_mem (List.mem_of_find?_eq_some (h a))
  unknown tag htag
    | none => by
      refine List.find?_eq_none.mpr fun b hb => ?_
      rw [decide_eq_true_eq]
      exact fun hname => htag (hname ▸ List.mem_map_of_mem hb)
    | some _ => rfl
  fits _ _ _ hvalue := nomatch hvalue
  decode_encode a _ := h a

/-- A variant that holds what another type does. -/
def newtype (name : String) (codec : Codec α) : Variants [name] α where
  Valid := codec.Valid
  decidable := codec.decidable
  tag _ := name
  content a := some (codec.encode a)
  decode tag content := if tag = name then content.bind codec.decode else none
  tag_mem _ := List.mem_singleton_self name
  unknown _ htag _ := if_neg fun h => htag (List.mem_singleton.mpr h)
  fits a ha _ hvalue := Option.some.inj hvalue ▸ codec.fits a ha
  decode_encode a ha := by
    rw [if_pos rfl, Option.bind_some]
    exact codec.decode_encode a ha

/-- Variants, and then others. -/
def or (x : Variants tags α) (y : Variants others β) (htags : ∀ tag ∈ tags, tag ∉ others) :
    Variants (tags ++ others) (α ⊕ β) where
  Valid := Sum.elim x.Valid y.Valid
  decidable
    | .inl a => x.decidable a
    | .inr b => y.decidable b
  tag := Sum.elim x.tag y.tag
  content := Sum.elim x.content y.content
  decode tag content :=
    if tag ∈ tags then (x.decode tag content).map .inl else (y.decode tag content).map .inr
  tag_mem
    | .inl a => List.mem_append_left _ (x.tag_mem a)
    | .inr b => List.mem_append_right _ (y.tag_mem b)
  unknown tag htag content := by
    rw [List.mem_append, not_or] at htag
    rw [if_neg htag.1, y.unknown tag htag.2, Option.map_none]
  fits
    | .inl a, ha => x.fits a ha
    | .inr b, hb => y.fits b hb
  decode_encode
    | .inl a, ha => by
      have hdecode := x.decode_encode a ha
      rw [Sum.elim_inl, Sum.elim_inl, if_pos (x.tag_mem a), hdecode, Option.map_some]
    | .inr b, hb => by
      have hdecode := y.decode_encode b hb
      have hnot : y.tag b ∉ tags := fun hmem => htags _ hmem (y.tag_mem b)
      rw [Sum.elim_inr, Sum.elim_inr, if_neg hnot, hdecode, Option.map_some]

/-- The variants as they are called. -/
def conv (variants : Variants tags α) (make : α → β) (view : β → α)
    (h : ∀ b, make (view b) = b) : Variants tags β where
  Valid b := variants.Valid (view b)
  decidable b := variants.decidable (view b)
  tag b := variants.tag (view b)
  content b := variants.content (view b)
  decode tag content := (variants.decode tag content).map make
  tag_mem b := variants.tag_mem (view b)
  unknown tag htag content := by rw [variants.unknown tag htag, Option.map_none]
  fits b := variants.fits (view b)
  decode_encode b hb := by rw [variants.decode_encode _ hb, Option.map_some, h]

/-- Tagged from outside. -/
def external (variants : Variants tags α) : Codec α where
  Valid := variants.Valid
  decidable := variants.decidable
  encode a :=
    match variants.content a with
    | none => .string (variants.tag a)
    | some value => .map [(.string (variants.tag a), value)]
  decode
    | .string tag => variants.decode tag none
    | .map [(.string tag, value)] => variants.decode tag (some value)
    | _ => none
  fits a ha := by
    cases hcontent : variants.content a with
    | none => exact .string _
    | some value =>
      have hvalue := variants.fits a ha value hcontent
      refine .map (fun entry hentry => ?_) (fun entry hentry => ?_)
      · exact List.mem_singleton.mp hentry ▸ .string _
      · exact List.mem_singleton.mp hentry ▸ hvalue
  decode_encode a ha := by
    have hdecode := variants.decode_encode a ha
    cases hcontent : variants.content a with
    | none => rwa [hcontent] at hdecode
    | some value => rwa [hcontent] at hdecode

variable {tagName contentName : String}

/-- The fields of an adjacently tagged variant. -/
def entries (variants : Variants tags α) (tagName contentName : String) (a : α) :
    List (Value × Value) :=
  (.string tagName, .string (variants.tag a)) ::
    (variants.content a).toList.map (.string contentName, ·)

/-- What is under the tag of these entries decides what is read of the content. -/
def decodeEntries (variants : Variants tags α) (tagName contentName : String)
    (entries : List (Value × Value)) : Option α :=
  (field Value.text tagName entries).bind fun tag =>
    (fieldOr none (fun value => some (some value)) contentName entries).bind fun content =>
      variants.decode tag content

theorem under_tag (variants : Variants tags α) (h : tagName ≠ contentName) (a : α) :
    Value.under tagName (variants.entries tagName contentName a) =
      [.string (variants.tag a)] := by
  rw [entries]
  cases variants.content a <;> simp [Value.under, Value.text, h.symm]

theorem under_content (variants : Variants tags α) (h : tagName ≠ contentName) (a : α) :
    Value.under contentName (variants.entries tagName contentName a) =
      (variants.content a).toList := by
  rw [entries]
  cases variants.content a <;> simp [Value.under, Value.text, h]

/-- What is written reads back by its tag. -/
theorem decodeEntries_entries (variants : Variants tags α) (h : tagName ≠ contentName) (a : α) :
    variants.decodeEntries tagName contentName (variants.entries tagName contentName a) =
      variants.decode (variants.tag a) (variants.content a) := by
  rw [decodeEntries, field, variants.under_tag h a, fieldOr, variants.under_content h a]
  cases variants.content a <;> rfl

theorem onlyNamed_entries (variants : Variants tags α) (a : α) :
    Fields.onlyNamed [tagName, contentName] (variants.entries tagName contentName a) = true := by
  rw [entries]
  cases variants.content a <;> simp [Fields.onlyNamed, Value.text]

/-- Tagged from beside. -/
def adjacent (variants : Variants tags α) (tagName contentName : String)
    (h : tagName ≠ contentName) : Codec α where
  Valid := variants.Valid
  decidable := variants.decidable
  encode a := .map (variants.entries tagName contentName a)
  decode
    | .map entries =>
      if Fields.onlyNamed [tagName, contentName] entries then
        variants.decodeEntries tagName contentName entries
      else none
    | _ => none
  fits a ha := by
    have hfits := variants.fits a ha
    refine .map (fun entry hentry => ?_) (fun entry hentry => ?_)
    · rcases List.mem_cons.mp hentry with rfl | hmem
      · exact .string _
      · obtain ⟨value, -, rfl⟩ := List.mem_map.mp hmem
        exact .string _
    · rcases List.mem_cons.mp hentry with rfl | hmem
      · exact .string _
      · obtain ⟨value, hvalue, rfl⟩ := List.mem_map.mp hmem
        exact hfits value (Option.mem_toList.mp hvalue)
  decode_encode a ha := by
    refine (if_pos (variants.onlyNamed_entries a)).trans ?_
    rw [variants.decodeEntries_entries h a]
    exact variants.decode_encode a ha

/-- What has a name of no variant is read as none. -/
theorem decode_adjacent_eq_none (variants : Variants tags α) (h : tagName ≠ contentName)
    {entries : List (Value × Value)} {tag : String}
    (hunder : Value.under tagName entries = [.string tag]) (htag : tag ∉ tags) :
    (variants.adjacent tagName contentName h).decode (.map entries) = none := by
  have hfield : field Value.text tagName entries = some tag := by
    rw [field, hunder]
    rfl
  rw [adjacent]
  dsimp only
  split_ifs
  · rw [decodeEntries, hfield, Option.bind_some]
    cases fieldOr none (fun value => some (some value)) contentName entries with
    | none => rfl
    | some content => exact variants.unknown tag htag content
  · rfl

end Variants

end MoonCore
