import Mathlib.Tactic

/-!
# Streams of self-delimiting records

`parse` takes one record off the front of a stream. When a record announces its own
end, a stream falls apart into records in one way only, and reading as long as
possible finds exactly the longest run of records at its front.
-/
namespace KVRPC.Library.Records

variable {α β : Type*}

/-- The symbols `r` are one record carrying `a`, whatever follows them. -/
def Record (parse : List β → Option (α × List β)) (a : α) (r : List β) : Prop :=
  r ≠ [] ∧ ∀ rest, parse (r ++ rest) = some (a, rest)

/-- Acceptance depends on the record alone. -/
def SelfDelimiting (parse : List β → Option (α × List β)) : Prop :=
  ∀ xs a rest, parse xs = some (a, rest) → ∃ r, xs = r ++ rest ∧ Record parse a r

/-- Read records while there are any; what is left over comes second. -/
def scan (parse : List β → Option (α × List β)) (xs : List β) : List α × List β :=
  match parse xs with
  | none => ([], xs)
  | some (a, rest) =>
    if rest.length < xs.length then (a :: (scan parse rest).1, (scan parse rest).2)
    else ([], xs)
termination_by xs.length

variable {parse : List β → Option (α × List β)}

theorem SelfDelimiting.shorter (hp : SelfDelimiting parse) {xs rest : List β} {a : α}
    (h : parse xs = some (a, rest)) : rest.length < xs.length := by
  obtain ⟨r, rfl, hne, _⟩ := hp _ _ _ h
  have := List.length_pos_iff.mpr hne
  simp
  omega

theorem SelfDelimiting.nil (hp : SelfDelimiting parse) : parse [] = none := by
  by_contra h
  obtain ⟨⟨a, rest⟩, h⟩ := Option.ne_none_iff_exists'.mp h
  simpa using hp.shorter h

theorem scan_none {xs : List β} (h : parse xs = none) : scan parse xs = ([], xs) := by
  rw [scan]
  simp [h]

theorem scan_some (hp : SelfDelimiting parse) {xs rest : List β} {a : α}
    (h : parse xs = some (a, rest)) :
    scan parse xs = (a :: (scan parse rest).1, (scan parse rest).2) := by
  rw [scan]
  simp [h, hp.shorter h]

theorem scan_record_append (hp : SelfDelimiting parse) {a : α} {r : List β}
    (h : Record parse a r) (rest : List β) :
    scan parse (r ++ rest) = (a :: (scan parse rest).1, (scan parse rest).2) :=
  scan_some hp (h.2 rest)

/-- A record cut short is none. -/
theorem SelfDelimiting.cut (hp : SelfDelimiting parse) {a : α} {r p q : List β}
    (h : Record parse a r) (split : r = p ++ q) (hq : q ≠ []) : parse p = none := by
  by_contra some_record
  obtain ⟨⟨b, rest⟩, hpar⟩ := Option.ne_none_iff_exists'.mp some_record
  obtain ⟨r', rfl, hr'⟩ := hp _ _ _ hpar
  have whole := h.2 []
  rw [List.append_nil, split, List.append_assoc, hr'.2] at whole
  simp [hq] at whole

/-- Records at the front of a stream are read first, whatever follows. -/
theorem scan_append (hp : SelfDelimiting parse) {as : List α} {rs : List (List β)}
    (h : List.Forall₂ (Record parse) as rs) (rest : List β) :
    scan parse (rs.flatten ++ rest) = (as ++ (scan parse rest).1, (scan parse rest).2) := by
  induction h with
  | nil => rfl
  | @cons a r as rs hr _ ih =>
    rw [List.flatten_cons, List.append_assoc, scan_record_append hp hr, ih]
    rfl

/-- A stream is the records read from it followed by what is left, which starts no record. -/
theorem scan_sound (hp : SelfDelimiting parse) (xs : List β) :
    ∃ rs, List.Forall₂ (Record parse) (scan parse xs).1 rs ∧
      xs = rs.flatten ++ (scan parse xs).2 ∧ parse (scan parse xs).2 = none := by
  induction hn : xs.length using Nat.strongRecOn generalizing xs with
  | ind n ih =>
    cases h : parse xs with
    | none =>
      rw [scan_none h]
      exact ⟨[], .nil, rfl, h⟩
    | some pair =>
      obtain ⟨a, rest⟩ := pair
      obtain ⟨r, split, record⟩ := hp _ _ _ h
      obtain ⟨rs, records, tail, stop⟩ := ih rest.length (hn ▸ hp.shorter h) rest rfl
      rw [scan_some hp h]
      refine ⟨r :: rs, .cons record records, ?_, stop⟩
      rw [List.flatten_cons, List.append_assoc, ← tail]
      exact split

/-- Nothing is left exactly when the stream is a concatenation of records. -/
theorem scan_eq_iff (hp : SelfDelimiting parse) (xs : List β) (as : List α) :
    scan parse xs = (as, []) ↔ ∃ rs, List.Forall₂ (Record parse) as rs ∧ xs = rs.flatten := by
  constructor
  · intro h
    obtain ⟨rs, records, split, _⟩ := scan_sound hp xs
    rw [h] at records split
    exact ⟨rs, records, by simpa using split⟩
  · rintro ⟨rs, records, rfl⟩
    have := scan_append hp records []
    rw [scan_none hp.nil] at this
    simpa using this

/-- Records followed by something that starts none are read back exactly. -/
theorem scan_eq_of_records (hp : SelfDelimiting parse) {as : List α} {rs : List (List β)}
    (h : List.Forall₂ (Record parse) as rs) {rest : List β} (stop : parse rest = none) :
    scan parse (rs.flatten ++ rest) = (as, rest) := by
  rw [scan_append hp h, scan_none stop]
  simp

/-- **Maximality.** Any records at the front of a stream are a prefix of those read. -/
theorem records_prefix_scan (hp : SelfDelimiting parse) {as : List α} {rs : List (List β)}
    (h : List.Forall₂ (Record parse) as rs) {xs rest : List β} (split : xs = rs.flatten ++ rest) :
    as <+: (scan parse xs).1 := by
  rw [split, scan_append hp h]
  exact List.prefix_append _ _

/-- **Torn streams.** A prefix of a stream of records reads as a prefix of its contents, and
what is left over is part of the next record. -/
theorem scan_torn (hp : SelfDelimiting parse) {enc : α → List β} {as : List α}
    (h : ∀ a ∈ as, Record parse a (enc a)) {p : List β} (torn : p <+: (as.map enc).flatten) :
    ∃ done rest, scan parse p = (done, rest) ∧ done <+: as ∧ p = (done.map enc).flatten ++ rest ∧
      (rest ≠ [] → ∃ a, done ++ [a] <+: as ∧ rest <+: enc a ∧ rest ≠ enc a) := by
  induction as generalizing p with
  | nil =>
    obtain rfl : p = [] := List.prefix_nil.mp torn
    exact ⟨[], [], scan_none hp.nil, List.prefix_rfl, rfl, fun hne => absurd rfl hne⟩
  | cons a as ih =>
    rw [List.map_cons, List.flatten_cons] at torn
    by_cases whole : enc a <+: p
    · obtain ⟨p', rfl⟩ := whole
      obtain ⟨done, rest, read, before, split, left⟩ :=
        ih (fun b hb => h b (by simp [hb])) ((List.prefix_append_right_inj _).mp torn)
      refine ⟨a :: done, rest, ?_, by simpa using before, ?_, fun hne => ?_⟩
      · rw [scan_record_append hp (h a (by simp)), read]
      · rw [List.map_cons, List.flatten_cons, List.append_assoc, ← split]
      · obtain ⟨b, next, part⟩ := left hne
        exact ⟨b, by simpa using next, part⟩
    · have part : p <+: enc a :=
        (List.prefix_or_prefix_of_prefix torn (List.prefix_append _ _)).resolve_right whole
      obtain ⟨q, hq⟩ := part
      have cut : parse p = none := by
        refine hp.cut (h a (by simp)) hq.symm ?_
        rintro rfl
        rw [List.append_nil] at hq
        exact whole (hq ▸ List.prefix_rfl)
      refine ⟨[], p, scan_none cut, List.nil_prefix, rfl, fun _ => ⟨a, by simp, ⟨q, hq⟩, ?_⟩⟩
      rintro rfl
      exact whole List.prefix_rfl

end KVRPC.Library.Records
