import WireTables.Proofs.Constants
import WireTables.Proofs.Wire.Resolved

/-!
# What tables resolve

When tables are extracted, every type that is named by a type is registered, and every array size,
every selector of a union member and every constant has a value. The texts in the domains of fields
have been read but not evaluated: the value of a constant field may name a constant that does not
exist, and so may the largest number of elements of an array. This is the only way in which one can
come up later: if all of these texts have values, no structure fails to be laid out, written or read
because of a constant that does not exist or a malformed expression (`resolved_of_extract`).
-/

namespace WireTables

open Schema Wire

/-- The name of a constant stands for one. -/
theorem Schema.isSome_resolveConstant? {s : Schema} {c : Constant} (hc : c ∈ s.constants.toList) :
    (s.resolveConstant? c.specName).isSome = true := by
  have hnumber : (s.constantNumber? c.specName).isSome = true := by
    unfold constantNumber?
    rw [Array.findIdx?_isSome, Array.any_eq_true']
    exact ⟨c, Array.mem_toList_iff.mp hc, beq_self_eq_true _⟩
  obtain ⟨number, hnumber⟩ := Option.isSome_iff_exists.mp hnumber
  unfold resolveConstant?
  rw [hnumber]
  rfl

/-- The value of a text. -/
def Registry.textValue (r : Registry) (text : String) : Except Error Int :=
  (r.calculate (·.evaluate text)).1

section Registries

variable {r : Registry} {text : String}

theorem Registry.Settled.hasValue_iff (h : r.Settled) :
    r.toSchema.HasValue r.known text ↔ ∃ n, r.textValue text = .ok n := by
  constructor
  · rintro ⟨n, hn⟩
    exact ⟨n, Registry.calculate_eq_ok.mpr ⟨_, hn⟩⟩
  · rintro ⟨n, hn⟩
    obtain ⟨known, hn⟩ := Registry.calculate_eq_ok.mp hn
    exact ⟨n, (evaluate_keeps h.remembers text).yields_iff.mp hn |>.1⟩

/-- A constant that a name stands for has a value. -/
theorem Registry.Settled.exists_value (h : r.Settled) {name : String}
    (hn : (r.resolveConstant? name).isSome = true) :
    ∃ n, r.constantValue name = .ok n := by
  obtain ⟨number, hn⟩ := Option.isSome_iff_exists.mp hn
  obtain ⟨value, hvalue⟩ := Option.isSome_iff_exists.mp (h.complete name number hn)
  exact ⟨value, Registry.constantValue_of_known h hn hvalue⟩

end Registries

namespace Extraction

variable {tables : List Table} {config : Config} {r : Registry} {report : ExtractionReport}

theorem resolves_of_extract (h : extract tables config = .ok (r, report)) :
    r.Settled ∧ r.Meant r.known ∧ ∀ t ∈ r.types, r.Resolves r.known t :=
  have hchecked := (checked_of_extract h).1
  ⟨(tabled_of_extract h).1, meant_of_checkReferences hchecked, resolves_of_checkReferences hchecked⟩

/-- All references of extracted types are registered, and all array sizes, selectors and constants
have values. If the texts in the domains of fields that are evaluated later have values as well, no
structure is laid out, written or read with a failure that is about a constant that does not exist or
a malformed expression. -/
theorem resolved_of_extract (h : extract tables config = .ok (r, report)) :
    (∀ t ∈ r.types, (∀ name ∈ t.references, r.contains name = true) ∧
      (∀ text ∈ t.arraySizes, ∃ n, r.textValue text = .ok n) ∧
      ∀ name ∈ t.selectors, ∃ n, r.constantValue name = .ok n) ∧
    (∀ c ∈ r.constants.toList, ∃ n, r.constantValue c.specName = .ok n) ∧
    ((∀ t ∈ r.types, ∀ text ∈ t.domainTexts, ∃ n, r.textValue text = .ok n) →
      ∀ type, (∀ e, r.layout type = .error e → ¬ e.Unresolved) ∧
        (∀ v e, r.encode type v = .error e → ¬ e.Unresolved) ∧
        ∀ bytes e, r.decode type bytes = .error e → ¬ e.Unresolved) := by
  obtain ⟨hsettled, hmeant, htypes⟩ := resolves_of_extract h
  have htabled := (tabled_of_extract h).2
  refine ⟨fun t ht => ⟨fun name hname => contains_iff.mpr ((htypes t ht).references name hname),
    fun text htext => hsettled.hasValue_iff.mp ((htypes t ht).arraySizes text htext),
    fun name hname => hsettled.exists_value ((htypes t ht).selectors name hname)⟩,
    fun c hc => hsettled.exists_value (isSome_resolveConstant? hc), fun hdomains type => ?_⟩
  have hresolved : r.Resolved r.known :=
    { words := hsettled.words
      complete := hsettled.complete
      meant := hmeant
      types := htypes
      domains := fun t ht text htext => hsettled.hasValue_iff.mpr (hdomains t ht text htext)
      tails := fun t ht x tail hx htail => by
        rw [(htabled.record ht hx).tail] at htail
        cases htail }
  exact ⟨(layout_resolved hresolved type r.known rfl).2,
    fun v => (encode_resolved hresolved type v r.known rfl).2,
    fun bytes => (decode_resolved hresolved type bytes r.known rfl).2⟩

section Bundles

/-- Bundles of one kind, of at most as many items as a constant says. -/
def bundleTables (limit : String) : List Table :=
  [{ caption := "Table 1 — Definition of (UINT16) TPM_KIND Constants",
     rows := [["TPM_KIND_BUNDLE", "1", ""], ["TPM_KIND_LIMIT", "TPM_KIND_BUNDLE + 3", ""]] },
   { caption := "Table 2 — Definition of TPMS_BUNDLE Structure",
     rows := [["kind=TPM_KIND_BUNDLE", "TPM_KIND", ""], ["count", "UINT16", ""],
       ["items[count]\x7b:" ++ limit ++ "\x7d", "UINT16", ""],
       ["seal[TPM_KIND_LIMIT * 2]", "BYTE", ""]] }]

/-- The registry of bundles. -/
def bundles (limit : String) : Registry :=
  match extract (bundleTables limit) {} with
  | .ok (r, _) => r
  | .error _ => default

/-- An item and a seal. -/
def bundle : Wire.Value :=
  .struct [("items", .list [.number (.ofInt .u16 7)]), ("seal", .bytes (List.replicate 8 0))]

/-- What bundles refer to where their limit is defined, and how one is written where it is not. -/
theorem bundle_facts :
    ((extract (bundleTables "TPM_KIND_LIMIT") {}).toOption.map Prod.fst =
        some (bundles "TPM_KIND_LIMIT") ∧
      (∀ t ∈ (bundles "TPM_KIND_LIMIT").types, ∀ text ∈ t.domainTexts,
        ((bundles "TPM_KIND_LIMIT").textValue text).toOption.isSome = true) ∧
      "TPMS_BUNDLE" ∈ (bundles "TPM_KIND_LIMIT").types.map (·.specName) ∧
      ∀ t ∈ (bundles "TPM_KIND_LIMIT").types, t.specName = "TPMS_BUNDLE" →
        "TPM_KIND" ∈ t.references ∧ "TPM_KIND_LIMIT * 2" ∈ t.arraySizes) ∧
    (extract (bundleTables "TPM_UNDEFINED") {}).toOption.map Prod.fst =
        some (bundles "TPM_UNDEFINED") ∧
      (match (bundles "TPM_UNDEFINED").encode "TPMS_BUNDLE" bundle with
        | .error (.schema (.unresolvedConstant name)) => some name
        | _ => none) = some "TPM_UNDEFINED" := by
  decide +kernel

/-- Bundles whose limit is defined resolve. -/
theorem resolved_bundles :
    (∃ report, extract (bundleTables "TPM_KIND_LIMIT") {} =
        .ok (bundles "TPM_KIND_LIMIT", report)) ∧
      (bundles "TPM_KIND_LIMIT").contains "TPM_KIND" = true ∧
      (∃ n, (bundles "TPM_KIND_LIMIT").textValue "TPM_KIND_LIMIT * 2" = .ok n) ∧
      (∀ t ∈ (bundles "TPM_KIND_LIMIT").types, ∀ text ∈ t.domainTexts,
        ∃ n, (bundles "TPM_KIND_LIMIT").textValue text = .ok n) ∧
      ∀ v e, (bundles "TPM_KIND_LIMIT").encode "TPMS_BUNDLE" v = .error e → ¬ e.Unresolved := by
  obtain ⟨⟨hbundles, hdomains, hbundle, htexts⟩, -⟩ := bundle_facts
  obtain ⟨⟨r, report⟩, hextract, hr⟩ := Option.map_eq_some_iff.mp hbundles
  have hextract := ok_of_toOption hextract
  rw [show r = bundles "TPM_KIND_LIMIT" from hr] at hextract
  have hdomains : ∀ t ∈ (bundles "TPM_KIND_LIMIT").types, ∀ text ∈ t.domainTexts,
      ∃ n, (bundles "TPM_KIND_LIMIT").textValue text = .ok n := fun t ht text htext => by
    obtain ⟨n, hn⟩ := Option.isSome_iff_exists.mp (hdomains t ht text htext)
    exact ⟨n, ok_of_toOption hn⟩
  obtain ⟨htypes, -, hmarshal⟩ := resolved_of_extract hextract
  obtain ⟨t, ht, hname⟩ := List.mem_map.mp hbundle
  obtain ⟨hkind, hsize⟩ := htexts t ht hname
  obtain ⟨hreferences, hsizes, -⟩ := htypes t ht
  exact ⟨⟨report, hextract⟩, hreferences _ hkind, hsizes _ hsize, hdomains,
    (hmarshal hdomains "TPMS_BUNDLE").2.1⟩

/-- Bundles whose limit is not defined are extracted as well, and a bundle is not written. -/
theorem unresolved_bundles :
    (∃ report, extract (bundleTables "TPM_UNDEFINED") {} = .ok (bundles "TPM_UNDEFINED", report)) ∧
      (bundles "TPM_UNDEFINED").encode "TPMS_BUNDLE" bundle =
        .error (.schema (.unresolvedConstant "TPM_UNDEFINED")) := by
  obtain ⟨-, hbundles, hfailure⟩ := bundle_facts
  refine ⟨?_, ?_⟩
  · obtain ⟨⟨r, report⟩, hextract, hr⟩ := Option.map_eq_some_iff.mp hbundles
    have hextract := ok_of_toOption hextract
    rw [show r = bundles "TPM_UNDEFINED" from hr] at hextract
    exact ⟨report, hextract⟩
  · split at hfailure
    · next name hname =>
      cases hfailure
      exact hname
    · cases hfailure

end Bundles

end Extraction

end WireTables
