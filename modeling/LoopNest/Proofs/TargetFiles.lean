import LoopNest.Proofs.JsonGrammar
import LoopNest.Target.File

/-!
# Target files

A file holds a target as an object with a field for each property. The order of the fields does not
matter, nor do unknown fields and the spelling of the text; a field that is missing stands for the
property of the portable target.

* `Target.fields`, **`Target.spells_toJson`**: a target as it is written;
* `Target.pick`, `Target.without`: properties from two targets, and a target of which some
  properties are not given;
* **`Target.setFields?_eq`**: what a run over fields gives;
* **`Target.load_fields`**: what is loaded from a file.
-/

namespace LoopNest

/-! ## Values -/

theorem Dialect.ofJson?_text (d : Dialect) : Dialect.ofJson? (.text d.text) = some d := by
  cases d <;> rfl

namespace Json

@[simp] theorem asText?_text (s : String) : (text s).asText? = some s := rfl

@[simp] theorem asBool?_bool (b : Bool) : (bool b).asBool? = some b := rfl

theorem asTexts?_map_text (ss : List String) : (arr (ss.map text)).asTexts? = some ss := by
  induction ss with
  | nil => rfl
  | cons s ss ih =>
    rw [asTexts?] at ih ⊢
    rw [List.map_cons, List.mapM_cons, ih]
    rfl

theorem asSize?_toNat (n : UInt64) : (int n.toNat).asSize? = some n := by
  have hlt : (n.toNat : Int) < 0x10000000000000000 := by
    have := n.toNat_lt
    omega
  rw [asSize?, if_pos ⟨Int.natCast_nonneg _, hlt⟩, Int.toNat_natCast, UInt64.ofNat_toNat]

end Json

namespace Target

/-! ## Fields -/

/-- The fields of a target, in the order in which they are written. -/
def fields (t : Target) : List (String × Json) :=
  fieldNames.zip [.text t.name, .text t.displayName, .text t.dialect.text,
    .arr (t.includes.map Json.text), .text t.indexType, .text t.float16Type,
    .text t.restrictKeyword, .bool t.supportsZigzag, .int t.indentWidth.toNat]

@[simp] theorem map_fst_fields (t : Target) : t.fields.map Prod.fst = fieldNames := rfl

theorem nodup_fieldNames : fieldNames.Nodup := by decide

/-- **A target is written as JSON**, on one line and on many. -/
theorem spells_toJson (t : Target) : Json.Spells (.value t.toJson) t.toJson.compact.toList ∧
    Json.Spells (.value t.toJson) t.toJson.pretty.toList := by
  have hspelled : t.toJson.Spelled := by
    simp [toJson]
  exact ⟨Json.spells_compact hspelled, Json.spells_pretty hspelled⟩

/-- Properties of one target where they are kept, and of another one elsewhere. -/
def pick (keep : String → Bool) (t u : Target) : Target where
  name := if keep "name" then t.name else u.name
  displayName := if keep "display_name" then t.displayName else u.displayName
  dialect := if keep "dialect" then t.dialect else u.dialect
  includes := if keep "includes" then t.includes else u.includes
  indexType := if keep "index_type" then t.indexType else u.indexType
  float16Type := if keep "float16_type" then t.float16Type else u.float16Type
  restrictKeyword := if keep "restrict_keyword" then t.restrictKeyword else u.restrictKeyword
  supportsZigzag := if keep "supports_zigzag" then t.supportsZigzag else u.supportsZigzag
  indentWidth := if keep "indent_width" then t.indentWidth else u.indentWidth

/-- The target with the named properties of the portable one. -/
def without (t : Target) (missing : List String) : Target :=
  pick (fun k => k ∉ missing) t portable

section

variable {t u : Target} {keep keep' : String → Bool} {left : List String}

theorem pick_congr (h : ∀ k ∈ fieldNames, keep k = keep' k) : pick keep t u = pick keep' t u := by
  simp only [fieldNames, List.forall_mem_cons] at h
  simp only [pick, h]

theorem pick_pick : pick keep t (pick keep' t u) = pick (fun k => keep' k || keep k) t u := by
  have hchoice : ∀ {α : Type} (p q : Bool) (x y : α),
      (if p then x else if q then x else y) = if q || p then x else y := by
    intro α p q x y
    cases p <;> cases q <;> rfl
  simp only [pick, hchoice]

/-- A field of a target sets its property. -/
theorem set?_of_mem {k : String} {v : Json} (h : (k, v) ∈ t.fields) (u : Target) :
    u.set? k v = some (pick (fun x => x = k) t u) := by
  simp only [fields, fieldNames, List.zip_cons_cons, List.zip_nil_left, List.mem_cons,
    List.not_mem_nil, or_false, Prod.mk.injEq] at h
  rcases h with ⟨rfl, rfl⟩ | ⟨rfl, rfl⟩ | ⟨rfl, rfl⟩ | ⟨rfl, rfl⟩ | ⟨rfl, rfl⟩ | ⟨rfl, rfl⟩ |
    ⟨rfl, rfl⟩ | ⟨rfl, rfl⟩ | ⟨rfl, rfl⟩
  all_goals
    simp [set?, pick, Json.asTexts?_map_text, Json.asSize?_toNat, Dialect.ofJson?_text]

/-- **A run over fields** sets the properties that they name, in any order. -/
theorem setFields?_eq {fields : List (String × Json)}
    (hknown : ∀ f ∈ fields, f.1 ∈ fieldNames → f ∈ t.fields ∧ f.1 ∈ left)
    (hnodup : ((fields.map Prod.fst).filter (· ∈ fieldNames)).Nodup)
    (hleft : ∀ k ∈ left, k ∈ fieldNames) (u : Target) :
    u.setFields? left (fields.map fun f => (some f.1, f.2)) =
      some (pick (fun k => k ∈ fields.map Prod.fst) t u) := by
  induction fields generalizing left u with
  | nil => rfl
  | cons f fields ih =>
    obtain ⟨k, v⟩ := f
    obtain ⟨hf, hfields⟩ := List.forall_mem_cons.1 hknown
    dsimp only at hf
    rw [List.map_cons, setFields?]
    by_cases hk : k ∈ fieldNames
    · obtain ⟨hmem, hkleft⟩ := hf hk
      rw [List.map_cons, List.filter_cons_of_pos (by simpa using hk), List.nodup_cons] at hnodup
      -- No other field has this name, so the others still find theirs.
      have hother : ∀ f ∈ fields, f.1 ∈ fieldNames → f ∈ t.fields ∧ f.1 ∈ left.erase k := by
        intro f hmem hname
        obtain ⟨hft, hfleft⟩ := hfields f hmem hname
        have hne : f.1 ≠ k := by
          intro h
          have hk' : k ∈ fields.map Prod.fst := h ▸ List.mem_map_of_mem hmem
          exact hnodup.1 (List.mem_filter.2 ⟨hk', by simpa using hk⟩)
        exact ⟨hft, (List.mem_erase_of_ne hne).2 hfleft⟩
      simp only [if_pos hkleft, set?_of_mem hmem]
      rw [ih hother hnodup.2 (fun x hx => hleft x (List.mem_of_mem_erase hx)), pick_pick]
      refine congrArg some (pick_congr fun x _ => ?_)
      rw [List.map_cons, ← Bool.decide_or, decide_eq_decide]
      exact List.mem_cons.symm
    · rw [List.map_cons, List.filter_cons_of_neg (by simpa using hk)] at hnodup
      rw [if_neg fun h => hk (hleft k h), if_neg hk, ih hfields hnodup hleft]
      refine congrArg some (pick_congr fun x hx => ?_)
      have hne : x ≠ k := fun h => hk (h ▸ hx)
      simp [hne]

end

section

variable {t : Target} {missing : List String} {extra fields : List (String × Json)}
  (hextra : ∀ f ∈ extra, f.1 ∉ fieldNames)
  (hfields : fields.Perm (t.fields.filter (fun f => f.1 ∉ missing) ++ extra))

include hextra hfields

/-- A known field is one of the target's that are not missing. -/
theorem mem_fields_iff {f : String × Json} (hname : f.1 ∈ fieldNames) :
    f ∈ fields ↔ f ∈ t.fields ∧ f.1 ∉ missing := by
  have hnot : f ∉ extra := fun h => hextra f h hname
  simp [hfields.mem_iff, hnot]

theorem nodup_known : ((fields.map Prod.fst).filter (· ∈ fieldNames)).Nodup := by
  have hperm := (hfields.map Prod.fst).filter (· ∈ fieldNames)
  have hunknown : (extra.map Prod.fst).filter (· ∈ fieldNames) = [] := by
    simpa using hextra
  rw [hperm.nodup_iff, List.map_append, List.filter_append, hunknown, List.append_nil]
  have hsub : ((t.fields.filter fun f => f.1 ∉ missing).map Prod.fst).Sublist fieldNames :=
    List.filter_sublist.map Prod.fst
  exact (List.filter_sublist.trans hsub).nodup nodup_fieldNames

/-- What the fields of a file give, in any order. -/
theorem ofJson?_object : ofJson? (.object fields) = some (t.without missing) := by
  have hknown : ∀ f ∈ fields, f.1 ∈ fieldNames → f ∈ t.fields ∧ f.1 ∈ fieldNames :=
    fun f hf hname => ⟨((mem_fields_iff hextra hfields hname).1 hf).1, hname⟩
  rw [Json.object, ofJson?, setFields?_eq hknown (nodup_known hextra hfields) fun _ h => h]
  refine congrArg some (pick_congr fun k hk => ?_)
  have hmem : k ∈ fields.map Prod.fst ↔ k ∉ missing := by
    constructor
    · intro h
      obtain ⟨f, hf, rfl⟩ := List.mem_map.1 h
      exact ((mem_fields_iff hextra hfields hk).1 hf).2
    · intro h
      rw [← map_fst_fields t] at hk
      obtain ⟨f, hf, rfl⟩ := List.mem_map.1 hk
      exact List.mem_map_of_mem ((mem_fields_iff hextra hfields hk).2 ⟨hf, h⟩)
  simp only [hmem]

end

/-! ## Files -/

theorem parseFile_toUTF8 (text : String) : parseFile (.ok text.toUTF8) = parse text := by
  have hvalid : String.fromUTF8? text.toUTF8 = some text := dif_pos text.isValidUTF8
  rw [parseFile, hvalid]

/-- The name has a character that is not blank, and something is indented. -/
def Valid (t : Target) : Prop :=
  (∃ c ∈ t.name.toList, Text.isBlank c = false) ∧ 1 ≤ t.indentWidth

theorem allBlank_iff {t : Target} :
    Text.allBlank t.name = true ↔ ¬∃ c ∈ t.name.toList, Text.isBlank c = false := by
  simp [Text.allBlank]

theorem one_le_iff {n : UInt64} : 1 ≤ n ↔ n ≠ 0 := by
  rw [UInt64.le_iff_toNat_le, ne_eq, ← UInt64.toNat_inj]
  exact Nat.one_le_iff_ne_zero

theorem check_of_valid {t : Target} (h : t.Valid) : t.check = .ok t := by
  rw [check, if_neg (mt allBlank_iff.1 (not_not.2 h.1)), if_neg (one_le_iff.1 h.2)]

theorem check_of_not_valid {t : Target} (h : ¬t.Valid) : ∃ fault, t.check = .error fault := by
  unfold check
  by_cases hname : Text.allBlank t.name = true
  · exact ⟨.emptyName, if_pos hname⟩
  · rw [if_neg hname]
    refine ⟨.zeroIndent, if_pos ?_⟩
    by_contra hindent
    exact h ⟨not_not.1 (mt allBlank_iff.2 hname), one_le_iff.2 hindent⟩

/-- **What is loaded from a file.** The text spells an object of the fields of a target in any
order, those of some names missing and others of unknown names added. It gives the target with the
missing properties of the portable one, if that is valid, and an error of the configuration
otherwise. With no name missing that is the target, and both texts in which it is written spell its
fields. -/
theorem load_fields {t : Target} {missing : List String} {extra fields : List (String × Json)}
    {text : String} (hextra : ∀ f ∈ extra, f.1 ∉ fieldNames)
    (hfields : fields.Perm (t.fields.filter (fun f => f.1 ∉ missing) ++ extra))
    (htext : Json.Spells (.value (.object fields)) text.toList) (path : String) :
    ((t.without missing).Valid → load path (.ok text.toUTF8) = .ok (t.without missing)) ∧
    (¬(t.without missing).Valid →
      ∃ fault, load path (.ok text.toUTF8) = .error (.configuration (.targetFile path fault))) ∧
    t.without [] = t ∧
    Json.Spells (.value (.object t.fields)) t.toJson.compact.toList ∧
    Json.Spells (.value (.object t.fields)) t.toJson.pretty.toList := by
  have hparse : parse text = (t.without missing).check := by
    rw [parse, Json.read?_of_spells htext]
    simp only [ofJson?_object hextra hfields]
  unfold load
  rw [parseFile_toUTF8, hparse]
  refine ⟨fun h => ?_, fun h => ?_, rfl, t.spells_toJson⟩
  · rw [check_of_valid h]
    rfl
  · obtain ⟨fault, hfault⟩ := check_of_not_valid h
    rw [hfault]
    exact ⟨fault, rfl⟩

/-- Two properties of the target for Arm Cortex-M, in another order and with a field of no meaning
between them. -/
def sketch : List (String × Json) :=
  [("indent_width", .int 4), ("vendor", .arr [.null]), ("name", .text "arm_m")]

theorem load_fields_sketch :
    (∀ f ∈ [("vendor", Json.arr [.null])], f.1 ∉ fieldNames) ∧
    sketch.Perm (cortexM.fields.filter (fun f => f.1 ∉ fieldNames.tail.dropLast) ++
      [("vendor", .arr [.null])]) ∧
    Json.Spells (.value (.object sketch)) (Json.object sketch).compact.toList ∧
    load "target.json" (.ok (Json.object sketch).compact.toUTF8) =
      .ok { portable with name := "arm_m", indentWidth := 4 } := by
  have hextra : ∀ f ∈ [("vendor", Json.arr [.null])], f.1 ∉ fieldNames := by
    simp [fieldNames]
  have hperm : sketch.Perm (cortexM.fields.filter (fun f => f.1 ∉ fieldNames.tail.dropLast) ++
      [("vendor", .arr [.null])]) :=
    @List.perm_append_comm _ (sketch.take 2) (sketch.drop 2)
  have hspelled : (Json.object sketch).Spelled := by
    simp [sketch, Json.Spelled.null]
  have htext := Json.spells_compact hspelled
  have hvalid : (cortexM.without fieldNames.tail.dropLast).Valid :=
    ⟨⟨'a', by decide, by decide⟩, by decide⟩
  exact ⟨hextra, hperm, htext, (load_fields hextra hperm htext "target.json").1 hvalid⟩

end Target

end LoopNest
