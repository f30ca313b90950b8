/-
**Which requests carry the key.**

A key is any text that is not blank, and a header is any octets. A header is read only if all of it
is printable ASCII or tabs, so the octets of a key that holds anything else are never recognised:
the settings accept such a key, and the service then turns every request away.

* `Admin.Request.headerText?_eq_some_iff`: a header reads as the text whose octets it has, if all
  of them are legible;
* `Admin.Request.carries_iff`: so a request carries a key only if the key is legible itself;
* `Admin.routed_status_ne`: behind the key check, no resource answers as if the key were missing.
-/

import Wayfinder.Proofs.Administration

namespace Wayfinder

open Wayfinder.Text

/-! ### Octets of ASCII texts -/

namespace Text.Utf8

theorem octets_append (first second : String) :
    octets (first ++ second) = octets first ++ octets second := by
  rw [octets_eq, octets_eq, octets_eq, String.toList_append, List.flatMap_append]

theorem octets_injective : Function.Injective octets := by
  intro first second same
  have arrays : first.toByteArray = second.toByteArray :=
    ByteArray.ext (Array.toList_inj.mp same)
  exact String.toByteArray_inj.mp arrays

theorem utf8EncodeChar_of_ascii {octet : UInt8} (ascii : octet.toNat < 0x80) :
    String.utf8EncodeChar (Char.ofNat octet.toNat) = [octet] := by
  have number : (Char.ofNat octet.toNat).val.toNat = octet.toNat := by
    have valid : octet.toNat.isValidChar := Or.inl (by omega)
    rw [Char.ofNat, dif_pos valid]
    rfl
  have single : (Char.ofNat octet.toNat).utf8Size = 1 := by
    rw [Char.utf8Size_eq_one_iff, UInt32.le_iff_toNat_le, number]
    exact Nat.le_of_lt_succ ascii
  rw [String.utf8EncodeChar_eq_singleton single]
  congr 1
  rw [← UInt8.toNat_inj, UInt32.toNat_toUInt8, number]
  omega

/-- ASCII octets write the text of the characters with their numbers. -/
theorem octets_ofList {written : List UInt8} (ascii : ∀ octet ∈ written, octet.toNat < 0x80) :
    octets (String.ofList (written.map fun octet => Char.ofNat octet.toNat)) = written := by
  rw [octets_eq, String.toList_ofList]
  induction written with
  | nil => rfl
  | cons octet later ih =>
    obtain ⟨first, others⟩ := List.forall_mem_cons.mp ascii
    rw [List.map_cons, List.flatMap_cons, utf8EncodeChar_of_ascii first, ih others]
    rfl

end Text.Utf8

namespace Admin

namespace Request

/-! ### Headers -/

theorem ascii_of_isLegible {octet : UInt8} (legible : isLegible octet = true) :
    octet.toNat < 0x80 := by
  simp only [isLegible, Bool.or_eq_true, beq_iff_eq, Bool.and_eq_true, decide_eq_true_eq] at legible
  omega

/-- **A header reads as the text whose octets it has**, if all of them are legible. -/
theorem headerText?_eq_some_iff {written : List UInt8} {text : String} :
    headerText? (some written) = some text ↔
      (∀ octet ∈ written, isLegible octet = true) ∧ written = Utf8.octets text := by
  show (if written.all isLegible then _ else none) = some text ↔ _
  rw [← List.all_eq_true]
  by_cases legible : written.all isLegible = true
  · have back := Utf8.octets_ofList fun octet mem =>
      ascii_of_isLegible (List.all_eq_true.mp legible octet mem)
    rw [if_pos legible, Option.some_inj]
    constructor
    · rintro rfl
      exact ⟨legible, back.symm⟩
    · rintro ⟨-, same⟩
      exact Utf8.octets_injective (back.trans same)
  · rw [if_neg legible]
    exact ⟨fun read => (Option.some_ne_none _ read.symm).elim, fun both => absurd both.1 legible⟩

/-- **A request carries a key** if its header has the octets of the key behind the word `Bearer`,
and the key is legible. -/
theorem carries_iff {request : Request} {key : String} :
    request.carries (some key) = true ↔
      (∀ octet ∈ Utf8.octets key, isLegible octet = true) ∧
        request.authorization = some (Utf8.octets "Bearer " ++ Utf8.octets key) := by
  have word : ∀ octet ∈ Utf8.octets "Bearer ", isLegible octet = true := by decide +kernel
  show (headerText? request.authorization == some ("Bearer " ++ key)) = true ↔ _
  rw [beq_iff_eq]
  cases request.authorization with
  | none => simp [headerText?]
  | some written =>
    rw [headerText?_eq_some_iff, Utf8.octets_append, Option.some_inj]
    constructor
    · rintro ⟨legible, rfl⟩
      exact ⟨fun octet mem => legible octet (List.mem_append_right _ mem), rfl⟩
    · rintro ⟨legible, rfl⟩
      refine ⟨fun octet mem => ?_, rfl⟩
      rcases List.mem_append.mp mem with inWord | inKey
      · exact word octet inWord
      · exact legible octet inKey

end Request

/-! ### Behind the key check -/

theorem routed_status_ne (host : Host) (folder : Folder) (request : Request) :
    (routed host folder request).1.status ≠ 401 := by
  cases routed_cases host folder request with
  | roles asks read full turns =>
    rw [turns.response]
    exact (by decide : 200 ≠ 401)
  | catalog asks read turns =>
    rw [turns.response]
    exact (by decide : 200 ≠ 401)
  | reading there reads status keeps =>
    rw [status]
    decide
  | refused refuses =>
    intro same
    have member := refuses.status
    rw [same] at member
    exact absurd member (by decide)

/-- **A legible key lets in the requests that carry it, and an illegible one lets nobody in.** In
every state that requests bring a host to whose settings are valid and name a key, a request passes
just if the key is legible and the first header for it has the octets of the word `Bearer`, a space
and the key. Then it is routed; any other is answered 401 and changes nothing. -/
theorem lets_in_iff {settings : Settings} {folder : Folder} {host : Host} {key : String}
    (valid : settings.problems = []) (keyed : settings.admin.apiKey = some key)
    (started : Host.start settings folder = .ok host) (visits : List Visit) (files : Folder)
    (message : Message) :
    ((respond (served host visits) files message.request).1.status ≠ 401 ↔
      (∀ octet ∈ Utf8.octets key, Request.isLegible octet = true) ∧
        message.header? "authorization" =
          some (Utf8.octets "Bearer " ++ Utf8.octets key)) ∧
    ((respond (served host visits) files message.request).1.status ≠ 401 →
      respond (served host visits) files message.request =
        routed (served host visits) files message.request) ∧
    ((respond (served host visits) files message.request).1.status = 401 →
      respond (served host visits) files message.request =
        ({ status := 401 }, served host visits)) := by
  have own : (served host visits).apiKey = some key :=
    (sound_served visits (sound_of_start valid started)).apiKey.trans keyed
  have passes := @Request.carries_iff message.request key
  rw [← own] at passes
  show (_ ↔ _ ∧ message.request.authorization = _) ∧ _
  rw [← passes]
  cases carried : message.request.carries (served host visits).apiKey with
  | true =>
    have status := routed_status_ne (served host visits) files message.request
    rw [respond_of_carries carried]
    exact ⟨⟨fun _ => rfl, fun _ => status⟩, fun _ => rfl, fun same => absurd same status⟩
  | false =>
    rw [respond_of_not_carries carried]
    exact ⟨⟨fun other => absurd rfl other, fun pass => nomatch pass⟩,
      fun other => absurd rfl other, fun _ => rfl⟩

/-- Whatever its key, a host with the built-in pages starts. -/
theorem exists_start (key : String) :
    ∃ host, Host.start (settingsWithKey key) {} = .ok host ∧ host.apiKey = some key := by
  have starts : ∃ session, Session.ofSettings {} {} = .ok session := by decide +kernel
  obtain ⟨session, found⟩ := starts
  have own : Session.ofSettings (settingsWithKey key) {} = .ok session := found
  exact ⟨_, bind_eq_ok_iff.mpr ⟨session, own, rfl⟩, rfl⟩

/-- The key of the settings lets a message in after a change of roles; in capitals it does not. -/
theorem lets_in_iff_capitals :
    ∃ host, (settingsWithKey "key").problems = [] ∧
      (settingsWithKey "key").admin.apiKey = some "key" ∧
      Host.start (settingsWithKey "key") {} = .ok host ∧
      respond (served host [promotion]) {}
          (messageWithKey "GET" "/admin/menu" "key" []).request =
        routed (served host [promotion]) {}
          (messageWithKey "GET" "/admin/menu" "key" []).request ∧
      respond (served host [promotion]) {}
          (messageWithKey "GET" "/admin/menu" "KEY" []).request =
        ({ status := 401 }, served host [promotion]) := by
  obtain ⟨host, started, -⟩ := exists_start "key"
  have valid : (settingsWithKey "key").problems = [] := by decide +kernel
  obtain ⟨passes, routes, -⟩ := lets_in_iff valid rfl started [promotion] {}
    (messageWithKey "GET" "/admin/menu" "key" [])
  obtain ⟨other, -, stops⟩ := lets_in_iff valid rfl started [promotion] {}
    (messageWithKey "GET" "/admin/menu" "KEY" [])
  refine ⟨host, valid, rfl, started, routes (passes.mpr (by decide +kernel)), stops ?_⟩
  by_contra status
  exact absurd (other.mp status) (by decide +kernel)

/-- **Valid settings may name a key that lets nobody in**, because a letter of it is not ASCII. -/
theorem not_all_keys_let_in :
    ¬ ∀ (settings : Settings) (folder : Folder) (host : Host) (key : String) (message : Message),
      settings.problems = [] → settings.admin.apiKey = some key →
      Host.start settings folder = .ok host →
      message.header? "authorization" = some (Utf8.octets "Bearer " ++ Utf8.octets key) →
      (respond host folder message.request).1.status ≠ 401 := by
  intro all
  obtain ⟨host, started, own⟩ := exists_start "clé"
  have carried : (messageWithKey "GET" "/admin/status" "clé" []).request.carries host.apiKey =
      false := by
    rw [own]
    decide +kernel
  refine all (settingsWithKey "clé") {} host "clé"
    (messageWithKey "GET" "/admin/status" "clé" []) (by decide +kernel) rfl started
    (by decide +kernel) ?_
  rw [respond_of_not_carries carried]

end Admin

end Wayfinder
