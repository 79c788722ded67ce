import WireTables.Proofs.Codec
import WireTables.Proofs.Schema.Resolve
import WireTables.Proofs.Wire.Blame

/-!
# Derived structures

A structure without fields of its own has the fields of its base. It is written and read like its
base, failures included, except for the name that these blame (`marshals_like_base`). Two things can
set them apart: an absent tail is noted for each structure on its own, and the chain of bases is
longer by one, which matters at the limit of what is followed.
-/

namespace WireTables

namespace Schema

variable {s : Schema} {owner name derived base : String} {x : Record}

/-- One more structure on the way makes no difference unless the limit was reached. -/
theorem collectFields_more {room : Nat} :
    s.collectFields owner room name = .error (.inconsistent owner .baseCycle) ∨
      s.collectFields owner (room + 1) name = s.collectFields owner room name := by
  induction room generalizing name with
  | zero => exact .inl rfl
  | succ room ih =>
    rw [collectFields_step, collectFields_step]
    cases s.require name owner with
    | error e => exact .inr rfl
    | ok first =>
      cases s.target name with
      | error e => exact .inr rfl
      | ok t =>
        simp only [bind, Except.bind]
        cases t.record? with
        | none => exact .inr rfl
        | some r =>
          dsimp only
          generalize r.base = link
          cases link with
          | none => exact .inr rfl
          | some base =>
            dsimp only
            rcases @ih base with hlimit | hsame
            · rw [hlimit]
              exact .inl rfl
            · rw [hsame]
              exact .inr rfl

/-- A structure without fields of its own has those of its base, one structure further away. -/
theorem allFields_of_derived (hderived : (s.lookup? derived).bind TypeEntry.record? = some x)
    (hbase : x.base = some base) (hfields : x.fields = []) :
    s.allFields derived = s.collectFields derived maxDepth base := by
  obtain ⟨t, ht, hx⟩ := Option.bind_eq_some_iff.mp hderived
  have htarget : s.target derived = .ok t := target_of_lookup? ht fun a hk => by
    unfold TypeEntry.record? at hx
    rw [hk] at hx
    cases hx
  unfold allFields
  rw [collectFields_step, require_eq_ok.mpr ht, htarget]
  simp only [bind, Except.bind, hx, hbase, hfields, List.append_nil]
  cases s.collectFields derived maxDepth base <;> rfl

/-- The fields are the same unless only the chain of the derived structure is too long; failures
blame the one or the other. -/
theorem mapError_allFields (hderived : (s.lookup? derived).bind TypeEntry.record? = some x)
    (hbase : x.base = some base) (hfields : x.fields = [])
    (hchain : s.allFields derived = .error (.inconsistent derived .baseCycle) →
      s.allFields base = .error (.inconsistent base .baseCycle))
    {f : String → String} (hf : f derived = f base) :
    (s.allFields derived).mapError (Error.blame f) =
      (s.allFields base).mapError (Error.blame f) := by
  have hall := allFields_of_derived hderived hbase hfields
  have hmore : s.collectFields derived maxDepth base = .error (.inconsistent derived .baseCycle) ∨
      s.collectFields derived (maxDepth + 1) base = s.collectFields derived maxDepth base :=
    collectFields_more
  rcases hmore with hlimit | hsame
  · have hlimit' := hall.trans hlimit
    rw [hlimit', hchain hlimit']
    exact mapError_error (blame_inconsistent hf _)
  · rw [hall, ← hsame]
    exact mapError_collectFields hf

end Schema

namespace Wire

theorem run_decode {s : Schema} {type : String} {bytes : List UInt8} {known : Known} :
    Id.run ((decode s type bytes).run known) =
      let out := Id.run ((decodeRecord s
        (decodeAt s ((bytes.length + 1) * (s.types.length + 1))) type).run { left := bytes, known })
      (out.1.bind fun v => if out.2.position == bytes.length then .ok v
        else .error (.length (.trailing type (bytes.length - out.2.position))), out.2.known) :=
  rfl

section

variable {s : Schema} {f : String → String} {type type' : String} (hf : f type = f type')
  (hfields : (s.allFields type).mapError (Error.blame f) =
    (s.allFields type').mapError (Error.blame f))
  (htail : tailEnd s type = tailEnd s type')

include hf hfields htail

theorem agree_encode (v : Value) :
    AgreeUpTo (Fault.blame f) (encode s type v) (encode s type' v) :=
  agree_encodeRecord hf _ v hfields htail

theorem agree_decode (bytes : List UInt8) :
    AgreeUpTo (Fault.blame f) (decode s type bytes) (decode s type' bytes) := by
  intro known
  obtain ⟨hresult, hreader⟩ := agree_decodeRecord hf
    (decodeAt s ((bytes.length + 1) * (s.types.length + 1))) hfields htail { left := bytes, known }
  rw [run_decode, run_decode]
  refine ⟨mapError_bind hresult fun v => ?_, congrArg Reader.known hreader⟩
  rw [hreader]
  split
  · rfl
  · exact mapError_error (congrArg (fun t => Fault.length (.trailing t _)) hf)

end

end Wire

open Schema Wire

/-- A structure without fields of its own is written and read like its base, and where it fails, it
fails like its base but for the name that is blamed; provided that both have the same absent tail,
and that the chain of bases is not too long for the derived structure alone. -/
theorem marshals_like_base {r : Registry} {derived base : String} {x : Record}
    (hderived : (r.lookup? derived).bind TypeEntry.record? = some x)
    (hbase : x.base = some base) (hfields : x.fields = []) {t : TypeEntry} {y : Record}
    (hrecord : r.recordOf? base = some (t, y)) (htail : y.nullTail = x.nullTail)
    (hchain : r.allFields derived = .error (.inconsistent derived .baseCycle) →
      r.allFields base = .error (.inconsistent base .baseCycle))
    {f : String → String} (hf : f derived = f base) :
    (∀ v, (r.encode derived v).mapError (Fault.blame f) =
      (r.encode base v).mapError (Fault.blame f)) ∧
    ∀ bytes, (r.decode derived bytes).mapError (Fault.blame f) =
      (r.decode base bytes).mapError (Fault.blame f) := by
  have hall := mapError_allFields hderived hbase hfields hchain hf
  have hend : tailEnd r.toSchema derived = tailEnd r.toSchema base := by
    obtain ⟨u, hu, hx⟩ := Option.bind_eq_some_iff.mp hderived
    have htarget : r.target derived = .ok u := target_of_lookup? hu fun a hk => by
      unfold TypeEntry.record? at hx
      rw [hk] at hx
      cases hx
    unfold tailEnd recordType
    simp only [recordOf?_eq_some.mpr ⟨htarget, hx⟩, hrecord, pure_bind, htail]
  exact ⟨fun v => (agree_encode hf hall hend v r.known).1,
    fun bytes => (agree_decode hf hall hend bytes r.known).1⟩

section Ciphers

/-- Keys for two algorithms, which share a structure. -/
def cipherTables : List Table :=
  [{ caption := "Table 1 — Definition of (UINT16) TPM_ALG_ID Constants", comment := "",
     rows := [["TPM_ALG_AES", "6", "A", "", ""], ["TPM_ALG_XOR", "10", "A", "", ""]],
     handleCount := 0 },
   { caption := "Table 2 — Definition of TPMS_KEY Structure", comment := "",
     rows := [["size", "UINT16", ""], ["data[size]", "BYTE", ""]], handleCount := 0 },
   { caption := "Table 3 — Definition of TPMU_CIPHER Union", comment := "",
     rows := [["aes", "TPMS_KEY", "TPM_ALG_AES", ""], ["xor", "TPMS_KEY", "TPM_ALG_XOR", ""]],
     handleCount := 0 }]

/-- The registry of ciphers in normal form. -/
def ciphers : Registry :=
  match Extraction.extract cipherTables {} with
  | .ok (r, _) => (Id.run ((Edit.normalize {}).run r)).2
  | .error _ => default

/-- The type of keys for one algorithm, derived from the keys for all. -/
def aesKey : Record :=
  { base := some "TPMS_KEY", memberOf := [("TPMU_CIPHER", "TPM_ALG_AES")] }

theorem cipher_facts :
    (ciphers.lookup? "TPMS_KEY_AES").bind TypeEntry.record? = some aesKey ∧
      (ciphers.recordOf? "TPMS_KEY").map (·.2.nullTail) = some none ∧
      (ciphers.allFields "TPMS_KEY_AES").toOption.isSome = true ∧
      (ciphers.decode "TPMS_KEY" [0, 2, 7, 8]).toOption.isSome = true := by
  decide +kernel

/-- The name of all keys in place of those for one algorithm. -/
def keyName (name : String) : String :=
  if name = "TPMS_KEY_AES" then "TPMS_KEY" else name

/-- Keys for one algorithm are read as keys are. -/
theorem marshals_aesKey :
    ((ciphers.lookup? "TPMS_KEY_AES").bind TypeEntry.record? = some aesKey ∧
      aesKey.base = some "TPMS_KEY" ∧ aesKey.fields = []) ∧
    (∃ t y, ciphers.recordOf? "TPMS_KEY" = some (t, y) ∧ y.nullTail = aesKey.nullTail) ∧
    ciphers.allFields "TPMS_KEY_AES" ≠ .error (.inconsistent "TPMS_KEY_AES" .baseCycle) ∧
    (ciphers.decode "TPMS_KEY" [0, 2, 7, 8]).toOption.isSome = true ∧
    (∀ v, (ciphers.encode "TPMS_KEY_AES" v).mapError (Fault.blame keyName) =
      (ciphers.encode "TPMS_KEY" v).mapError (Fault.blame keyName)) ∧
    ∀ bytes, (ciphers.decode "TPMS_KEY_AES" bytes).mapError (Fault.blame keyName) =
      (ciphers.decode "TPMS_KEY" bytes).mapError (Fault.blame keyName) := by
  obtain ⟨hderived, hrecord, hall, hdecodes⟩ := cipher_facts
  obtain ⟨⟨t, y⟩, hrecord, htail⟩ := Option.map_eq_some_iff.mp hrecord
  have hchain : ciphers.allFields "TPMS_KEY_AES" ≠
      .error (.inconsistent "TPMS_KEY_AES" .baseCycle) := by
    intro h
    rw [h] at hall
    cases hall
  exact ⟨⟨hderived, rfl, rfl⟩, ⟨t, y, hrecord, htail⟩, hchain, hdecodes,
    marshals_like_base hderived rfl rfl hrecord htail (fun h => (hchain h).elim) (by decide)⟩

end Ciphers

end WireTables
