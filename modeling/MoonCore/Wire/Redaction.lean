import MoonCore.Wire.Audit

/-!
# What a redaction hides

A position of a value is secret if the way to it goes through the value of a string key that is
never to be recorded. `Audit.redact_exact`: a redaction keeps what is at every other position, puts
the marker where a way first becomes secret, and is the same for any two values that differ at
secret positions only. It is idempotent for that reason: a redaction differs from its value nowhere
else.
-/

namespace MoonCore

open MsgPack MsgPack.Value

/-- The way goes through the value of a key that is never to be recorded. -/
inductive Secret : Value → List ℕ → Prop where
  | key {value : Value} {i : ℕ} {name : String} {path : List ℕ}
      (hkey : value.keyAt i = some (.string name)) (hname : name ∈ neverRecord) :
    Secret value (i :: path)
  | part {value inner : Value} {i : ℕ} {path : List ℕ} (hpart : value.part i = some inner)
      (hpath : Secret inner path) : Secret value (i :: path)

/-- Two values are the same but for what is secret. -/
def SameBut (a b : Value) : Prop :=
  ∀ path, ¬ Secret a path → (a.follow path).map outline = (b.follow path).map outline

/-! ### One step into a redaction -/

/-- The names are those of string keys. -/
theorem isSensitive_iff {key : Value} :
    isSensitive key = true ↔ ∃ name ∈ neverRecord, key = .string name := by
  rw [isSensitive, Option.any_eq_true]
  cases key <;> simp [Value.text, and_comm]

theorem redactEntries_eq_map (entries : List (Value × Value)) :
    redactEntries entries = entries.map fun entry =>
      (entry.1, if isSensitive entry.1 then .string redacted else redact entry.2) := by
  induction entries with
  | nil => rfl
  | cons entry entries ih => exact congrArg (_ :: ·) ih

/-- Keys, order and shapes stay. -/
theorem outline_redact (value : Value) : (redact value).outline = value.outline := by
  cases value with
  | map entries => rw [redact, redactEntries_eq_map, outline, outline, List.map_map]; rfl
  | array items => rw [redact, redactItems_eq_map, outline, outline, List.map_map]; rfl
  | _ => rfl

/-- What becomes of a part. -/
theorem part_redact (value : Value) (i : ℕ) :
    (redact value).part i = (value.part i).map fun inner =>
      if (value.keyAt i).any isSensitive then .string redacted else redact inner := by
  cases value with
  | map entries =>
    rw [redact, redactEntries_eq_map, part, part, keyAt, List.getElem?_map]
    cases entries[i]? <;> rfl
  | array items =>
    rw [redact, redactItems_eq_map]
    exact List.getElem?_map ..
  | _ => rfl

/-- The keys of secrets are the sensitive ones. -/
theorem secret_key_iff {value : Value} {i : ℕ} :
    Secret value [i] ↔ (value.keyAt i).any isSensitive = true := by
  rw [Option.any_eq_true]
  constructor
  · rintro (⟨hkey, hname⟩ | ⟨-, ⟨⟩⟩)
    exact ⟨_, hkey, isSensitive_iff.mpr ⟨_, hname, rfl⟩⟩
  · rintro ⟨key, hkey, hsensitive⟩
    obtain ⟨name, hname, rfl⟩ := isSensitive_iff.mp hsensitive
    exact .key hkey hname

/-- What is inside a secret is secret. -/
theorem Secret.append {value : Value} {path : List ℕ} (h : Secret value path) (rest : List ℕ) :
    Secret value (path ++ rest) := by
  induction h with
  | key hkey hname => exact .key hkey hname
  | part hpart _ ih => exact .part hpart ih

/-! ### All the way into a redaction -/

/-- What is not secret stays. -/
theorem outline_follow_redact {value : Value} {path : List ℕ} (h : ¬ Secret value path) :
    ((redact value).follow path).map outline = (value.follow path).map outline := by
  induction path generalizing value with
  | nil => exact congrArg some (outline_redact value)
  | cons i path ih =>
    have hkey : ¬ Secret value [i] := fun hsecret => h (hsecret.append path)
    rw [secret_key_iff] at hkey
    simp only [follow_cons, part_redact, if_neg hkey]
    cases hpart : value.part i with
    | none => rfl
    | some inner => exact ih fun hsecret => h (.part hpart hsecret)

/-- Where a way first becomes secret, the marker is. -/
theorem follow_redact_secret {value : Value} {path : List ℕ} (h : ¬ Secret value path) {i : ℕ}
    {name : String} (hname : name ∈ neverRecord)
    (hkey : (value.follow path).bind (fun inner => inner.keyAt i) = some (.string name)) :
    (redact value).follow (path ++ [i]) = some (.string redacted) := by
  induction path generalizing value with
  | nil =>
    have hsecret := secret_key_iff.mp (.key hkey hname)
    -- a key is that of an entry, which has a value to be replaced
    have hpart : ∃ inner, value.part i = some inner := by
      cases value with
      | map entries =>
        obtain ⟨entry, hentry, -⟩ := Option.map_eq_some_iff.mp hkey
        exact ⟨entry.2, by rw [part, hentry, Option.map_some]⟩
      | _ => cases hkey
    obtain ⟨inner, hinner⟩ := hpart
    rw [List.nil_append, follow_cons, part_redact, hinner, Option.map_some, if_pos hsecret]
    rfl
  | cons j path ih =>
    have hoff : ¬ Secret value [j] := fun hsecret => h (hsecret.append path)
    rw [secret_key_iff] at hoff
    rw [follow_cons] at hkey
    simp only [List.cons_append, follow_cons, part_redact, if_neg hoff]
    cases hpart : value.part j with
    | none =>
      rw [hpart] at hkey
      cases hkey
    | some inner =>
      rw [hpart] at hkey
      exact ih (fun hsecret => h (.part hpart hsecret)) hkey

/-- **Two runs.** Values that differ in what is secret have one redaction. -/
theorem SameBut.redact_eq {a b : Value} (h : SameBut a b) : redact a = redact b := by
  refine eq_of_outlines _ _ fun path => ?_
  induction path generalizing a b with
  | nil =>
    have houtline : a.outline = b.outline := Option.some.inj (h [] nofun)
    rw [follow_nil, follow_nil, Option.map_some, Option.map_some, outline_redact, outline_redact,
      houtline]
  | cons i path ih =>
    have houtline : a.outline = b.outline := Option.some.inj (h [] nofun)
    have hkey : a.keyAt i = b.keyAt i := by rw [← keyAt_outline, houtline, keyAt_outline]
    rw [follow_cons, follow_cons, part_redact, part_redact, ← hkey]
    rcases part_cases houtline i with ⟨ha, hb⟩ | ⟨x, y, ha, hb⟩
    · rw [ha, hb]
    · rw [ha, hb, Option.map_some, Option.map_some]
      split_ifs with hsecret
      · -- both hold the marker, whatever they held before
        rfl
      · refine ih fun rest hrest => ?_
        have hsame := h (i :: rest) ?_
        · rwa [follow_cons, follow_cons, ha, hb] at hsame
        · rintro (⟨hname, hmem⟩ | ⟨hpart, hpath⟩)
          · exact hsecret (secret_key_iff.mp (.key hname hmem))
          · rw [ha, Option.some.injEq] at hpart
            exact hrest (hpart ▸ hpath)

/-- **Redaction.** It keeps every position that is not secret, puts the marker where a way first
becomes secret, is idempotent, and shows nothing of what is secret. -/
theorem Audit.redact_exact (value : Value) :
    (∀ path, ¬ Secret value path →
      ((redact value).follow path).map outline = (value.follow path).map outline) ∧
    (∀ path i, ∀ name ∈ neverRecord, ¬ Secret value path →
      (value.follow path).bind (fun inner => inner.keyAt i) = some (.string name) →
        (redact value).follow (path ++ [i]) = some (.string redacted)) ∧
    redact (redact value) = redact value ∧
    ∀ other, SameBut value other → redact value = redact other := by
  have hsame : SameBut value (redact value) := fun path hpath => (outline_follow_redact hpath).symm
  exact ⟨fun path => outline_follow_redact,
    fun path i name hname hpath hkey => follow_redact_secret hpath hname hkey,
    hsame.redact_eq.symm, fun other hother => hother.redact_eq⟩

/-- Below a map and below an array, under a key that is no string, and under a key that is there
twice. -/
example :
    redact (.map [(.string "outer", .map [(.string "code", .string "hunter2")]),
        (.integer 7, .array [.map [(.string "token", .integer 1), (.string "token", .nil)]])]) =
      .map [(.string "outer", .map [(.string "code", .string redacted)]),
        (.integer 7, .array [.map [(.string "token", .string redacted),
          (.string "token", .string redacted)]])] := rfl

end MoonCore
