import MoonCore.ForMathlib.Reader

/-!
# MessagePack

* `MsgPack.Value`, what a message is: scalars, arrays and maps, with access by key and by index
  (`Value.at_`), and by position; a value is what it is at every position
  (`Value.eq_of_outlines`);
* arrays as bytes: an array is its header, which holds its length, and then its elements. There
  are three headers; `MsgPack.arrayHeader` writes the shortest one that fits, and
  `MsgPack.readArray` reads them all.
-/

namespace MoonCore

namespace MsgPack

/-! ### Values -/

/-- A MessagePack value. -/
inductive Value where
  | nil
  | boolean (value : Bool)
  | integer (value : ℤ)
  | f32 (bits : UInt32)
  | f64 (bits : UInt64)
  | string (text : String)
  /-- A string whose bytes are not UTF-8. -/
  | malformed (bytes : List UInt8)
  | binary (bytes : List UInt8)
  | array (items : List Value)
  | map (entries : List (Value × Value))
  | ext (tag : Int8) (bytes : List UInt8)

namespace Value

/-- The text of a string that has one. -/
def text : Value → Option String
  | string text => some text
  | _ => none

/-- The values a map holds under a key. -/
def under (name : String) (entries : List (Value × Value)) : List Value :=
  (entries.filter fun entry => entry.1.text = some name).map Prod.snd

/-- A way into a value. -/
inductive Step where
  | key (name : String)
  | index (i : ℕ)
  deriving DecidableEq

/-- What is found one step into a value: the first value under a key, or an item. -/
def get : Value → Step → Option Value
  | map entries, .key name => (under name entries).head?
  | array items, .index i => items[i]?
  | _, _ => none

/-- What is found at the end of a path. -/
def at_ (value : Value) (path : List Step) : Option Value := path.foldlM get value

/-! ### Positions

A position counts entries and items, so that it tells entries of the same key apart and reaches
what is under a key that is no string. -/

/-- The key of an entry of a map. -/
def keyAt : Value → ℕ → Option Value
  | map entries, i => entries[i]?.map Prod.fst
  | _, _ => none

/-- The value of an entry of a map, or an item of an array. -/
def part : Value → ℕ → Option Value
  | map entries, i => entries[i]?.map Prod.snd
  | array items, i => items[i]?
  | _, _ => none

/-- What is found at a position. -/
def follow (value : Value) : List ℕ → Option Value
  | [] => some value
  | i :: path => (value.part i).bind fun inner => inner.follow path

/-- A value without its parts: the keys of a map, in order, the length of an array, and all of
anything else. -/
def outline : Value → Value
  | map entries => map (entries.map fun entry => (entry.1, nil))
  | array items => array (items.map fun _ => nil)
  | other => other

theorem follow_nil (value : Value) : value.follow [] = some value := rfl

theorem follow_cons (value : Value) (i : ℕ) (path : List ℕ) :
    value.follow (i :: path) = (value.part i).bind fun inner => inner.follow path := rfl

/-- The outline shows the keys. -/
theorem keyAt_outline (value : Value) (i : ℕ) : value.outline.keyAt i = value.keyAt i := by
  cases value with
  | map entries => rw [outline, keyAt, keyAt, List.getElem?_map, Option.map_map]; rfl
  | _ => rfl

/-- The outline shows how many parts there are. -/
theorem part_outline (value : Value) (i : ℕ) :
    value.outline.part i = (value.part i).map fun _ => nil := by
  cases value with
  | map entries => rw [outline, part, part, List.getElem?_map, Option.map_map, Option.map_map]; rfl
  | array items => exact List.getElem?_map ..
  | _ => rfl

/-- Values that have the same outline and the same parts are the same. -/
theorem eq_of_parts {a b : Value} (houtline : a.outline = b.outline)
    (hparts : ∀ i, a.part i = b.part i) : a = b := by
  cases a with
  | map entries =>
    cases b with
    | map entries' =>
      injection houtline with hkeys
      refine congrArg map (List.ext_getElem? fun i => ?_)
      have hkey := congrArg (fun entries => entries[i]?) hkeys
      have hvalue := hparts i
      simp only [List.getElem?_map, part] at hkey hvalue
      cases h : entries[i]? <;> cases h' : entries'[i]? <;> simp_all [Prod.ext_iff]
    | _ => cases houtline
  | array items =>
    cases b with
    | array items' => exact congrArg array (List.ext_getElem? hparts)
    | _ => cases houtline
  | _ => cases b <;> first | exact houtline | cases houtline

/-- A part is smaller than what it is a part of. -/
theorem sizeOf_lt_of_part {value inner : Value} {i : ℕ} (h : value.part i = some inner) :
    sizeOf inner < sizeOf value := by
  cases value with
  | map entries =>
    obtain ⟨⟨key, value⟩, hentry, rfl⟩ := Option.map_eq_some_iff.mp h
    have hlt := List.sizeOf_lt_of_mem (List.mem_of_getElem? hentry)
    simp only [Prod.mk.sizeOf_spec, map.sizeOf_spec] at hlt ⊢
    omega
  | array items =>
    have hlt := List.sizeOf_lt_of_mem (List.mem_of_getElem? h)
    simp only [array.sizeOf_spec]
    omega
  | _ => cases h

/-- The parts of values of the same outline are the same in number. -/
theorem part_cases {a b : Value} (houtline : a.outline = b.outline) (i : ℕ) :
    (a.part i = none ∧ b.part i = none) ∨ ∃ x y, a.part i = some x ∧ b.part i = some y := by
  have hsome := part_outline a i
  rw [houtline, part_outline] at hsome
  cases ha : a.part i <;> cases hb : b.part i <;> simp_all

/-- **A value is what it is at every position.** -/
theorem eq_of_outlines (a b : Value)
    (h : ∀ path, (a.follow path).map outline = (b.follow path).map outline) : a = b := by
  have houtline : a.outline = b.outline := Option.some.inj (h [])
  refine eq_of_parts houtline fun i => ?_
  rcases part_cases houtline i with ⟨ha, hb⟩ | ⟨x, y, ha, hb⟩
  · rw [ha, hb]
  · have hsize : sizeOf x < sizeOf a := sizeOf_lt_of_part ha
    have hxy : x = y := eq_of_outlines x y fun path => by
      have hpath := h (i :: path)
      rwa [follow_cons, follow_cons, ha, hb] at hpath
    rw [ha, hb, hxy]
termination_by sizeOf a

end Value

/-! ### Arrays as bytes -/

variable {α : Type*}

/-- The length of an array: `fixarray`, `array 16` or `array 32`. -/
def readArrayHeader : Reader ℕ
  | [] => none
  | byte :: rest =>
    if byte &&& 0xf0 = 0x90 then some ((byte &&& 0x0f).toNat, rest)
    else if byte = 0xdc then Reader.natBe 2 rest
    else if byte = 0xdd then Reader.natBe 4 rest
    else none

/-- An array of what `read` reads. -/
def readArray (read : Reader α) : Reader (List α) :=
  readArrayHeader.andThen read.times

/-- The shortest header of an array of `n` elements. -/
def arrayHeader (n : ℕ) : List UInt8 :=
  if n ≤ 15 then [0x90 ||| UInt8.ofNat n]
  else if n ≤ 0xffff then 0xdc :: beBytes 2 n
  else 0xdd :: beBytes 4 n

/-- Every length that fits into 32 bits reads back. -/
theorem reads_arrayHeader {n : ℕ} (h : n < 256 ^ 4) :
    Reader.Reads readArrayHeader (arrayHeader n) n := by
  intro rest
  rw [arrayHeader]
  split_ifs with hfix h16
  · have hbyte : ∀ k : Fin 16, ((0x90 ||| UInt8.ofNat k) &&& 0xf0 = 0x90) ∧
        ((0x90 ||| UInt8.ofNat k) &&& 0x0f).toNat = k := by decide
    obtain ⟨htag, hlength⟩ := hbyte ⟨n, by omega⟩
    rw [List.singleton_append, readArrayHeader, if_pos htag, hlength]
  · rw [List.cons_append, readArrayHeader, if_neg (by decide), if_pos rfl]
    exact Reader.reads_natBe (by omega) rest
  · rw [List.cons_append, readArrayHeader, if_neg (by decide), if_neg (by decide), if_pos rfl]
    exact Reader.reads_natBe h rest

/-- Encodings under an array header read as the array of what each of them reads as. -/
theorem reads_array {read : Reader α} {parts : List (List UInt8)} {as : List α}
    (hparts : List.Forall₂ (Reader.Reads read) parts as) (h : parts.length < 256 ^ 4) :
    Reader.Reads (readArray read) (arrayHeader parts.length ++ parts.flatten) as :=
  (reads_arrayHeader h).andThen (Reader.reads_times hparts)

end MsgPack

end MoonCore
