import HourlyUsage.Query
import HourlyUsage.Proofs.HourOrder

/-!
# Order of partition offsets

The offsets of an account all begin alike.  What follows has one length as long
as the years have four digits, and compares as the hours do.  A range of offsets
therefore holds the keys of exactly the hours of its range, whatever the names of
the objects are.
-/

namespace HourlyUsage

open Text

/-! ## Offsets -/

def accountPrefix (account : String) : String := "account=" ++ account ++ "/date="

/-- The bytes of an offset that tell the hour. -/
def hourBytes (t : Instant) : Bytes :=
  charBytes t.date.chars ++ (utf8 "/hour=" ++ (charBytes (fixed 2 t.hour) ++ utf8 "/"))

theorem utf8_partitionOffset (account : String) (t : Instant) :
    utf8 (partitionOffset account t) = utf8 (accountPrefix account) ++ hourBytes t := by
  simp only [partitionOffset, accountPrefix, hourBytes, utf8_append, utf8_ofList,
    List.append_assoc]

@[simp] theorem partitionOffset_truncateToHour (account : String) (t : Instant) :
    partitionOffset account t.truncateToHour = partitionOffset account t := by
  simp only [partitionOffset, Instant.date_truncateToHour, Instant.hour_truncateToHour]

theorem length_hourBytes {t : Instant} (h : t.date.HasFourDigitYear) :
    (hourBytes t).length = 19 := by
  simp only [hourBytes, List.length_append, Date.length_charBytes_chars h,
    length_charBytes_fixed]
  rfl

theorem length_hourBytes_eq {t u : Instant} (ht : t.date.HasFourDigitYear)
    (hu : u.date.HasFourDigitYear) : (hourBytes t).length = (hourBytes u).length := by
  rw [length_hourBytes ht, length_hourBytes hu]

/-- The hour of an offset compares as the hours do, also with anything behind it. -/
theorem hourBytes_append_lt_iff {t u : Instant} (ht : t.date.HasFourDigitYear)
    (hu : u.date.HasFourDigitYear) (rest : Bytes) :
    hourBytes t ++ rest < hourBytes u ↔ t.hourNumber < u.hourNumber := by
  have hth : t.hour < 10 ^ 2 := by
    have := t.hour_lt
    omega
  have huh : u.hour < 10 ^ 2 := by
    have := u.hour_lt
    omega
  have hdates : (charBytes t.date.chars).length = (charBytes u.date.chars).length := by
    rw [Date.length_charBytes_chars ht, Date.length_charBytes_chars hu]
  rw [append_lt_iff (length_hourBytes_eq ht hu), Instant.hourNumber_lt_iff, hourBytes, hourBytes,
    append_lt_append_iff hdates, Date.charBytes_chars_lt_iff ht hu,
    Date.charBytes_chars_eq_iff ht hu, append_lt_append_left_iff,
    append_lt_append_iff (by simp), fixed_lt_iff hth huh]
  simp [List.lt_irrefl]

/-- A key of an hour lies before an offset exactly if its hour is an earlier one. -/
theorem byteLt_append_partitionOffset {t u : Instant} (account name : String)
    (ht : t.date.HasFourDigitYear) (hu : u.date.HasFourDigitYear) :
    byteLt (partitionOffset account t ++ name) (partitionOffset account u) = true ↔
      t.hourNumber < u.hourNumber := by
  rw [byteLt_iff, utf8_append, utf8_partitionOffset, utf8_partitionOffset, List.append_assoc,
    append_lt_append_left_iff, hourBytes_append_lt_iff ht hu]

theorem byteLt_partitionOffset {t u : Instant} (account : String)
    (ht : t.date.HasFourDigitYear) (hu : u.date.HasFourDigitYear) :
    byteLt (partitionOffset account t) (partitionOffset account u) = true ↔
      t.hourNumber < u.hourNumber := by
  simpa using byteLt_append_partitionOffset account "" ht hu

/-! ## Ranges of hours -/

/-- The hours from `start` up to `stop` as a window, both taken as they are. -/
def Window.between (account : String) (start stop : Instant) : Window :=
  ⟨⟨partitionOffset account start, partitionOffset account stop⟩, start, stop⟩

theorem Window.ofRange_of_le (account : String) {start stop : Instant} (h : start ≤ stop) :
    Window.ofRange account start stop =
      .ok (Window.between account start.truncateToHour stop.truncateToHour) := by
  rw [Window.ofRange, if_neg (not_lt_of_ge h)]
  rfl

theorem Window.ofRange_of_lt (account : String) {start stop : Instant} (h : stop < start) :
    Window.ofRange account start stop = .error .invalidRange := by
  rw [Window.ofRange, if_pos h]

theorem Query.ofRange_of_le (account : String) {start stop : Instant} (h : start ≤ stop) :
    Query.ofRange account start stop =
      .ok (Window.between account start.truncateToHour stop.truncateToHour).query := by
  rw [Query.ofRange, Window.ofRange_of_le account h]
  rfl

theorem Query.contains_iff {q : Query} {key : String} :
    q.contains key = true ↔
      ¬ byteLt key q.startOffset = true ∧ byteLt key q.endOffset = true := by
  simp [Query.contains]

/-- The keys of an hour are in a range of keys exactly if the hour is in the range of hours. -/
theorem Window.contains_between_iff (account name : String) {start stop t : Instant}
    (hstart : start.date.HasFourDigitYear) (hstop : stop.date.HasFourDigitYear)
    (ht : t.date.HasFourDigitYear) :
    (Window.between account start stop).query.contains (partitionOffset account t ++ name) = true ↔
      start.hourNumber ≤ t.hourNumber ∧ t.hourNumber < stop.hourNumber := by
  rw [Query.contains_iff, Window.between, byteLt_append_partitionOffset account name ht hstart,
    byteLt_append_partitionOffset account name ht hstop, Int.not_lt]

/-- A query selects exactly the hours of its range, whatever the objects are called. -/
theorem Query.ofRange_selects_hours (account name : String) {start stop t : Instant}
    (hle : start ≤ stop) (hstart : start.date.HasFourDigitYear)
    (hstop : stop.date.HasFourDigitYear) (ht : t.date.HasFourDigitYear) :
    ∃ q, Query.ofRange account start stop = .ok q ∧
      (q.contains (partitionOffset account t ++ name) = true ↔
        start.truncateToHour ≤ t.truncateToHour ∧ t.truncateToHour < stop.truncateToHour) := by
  refine ⟨_, Query.ofRange_of_le account hle, ?_⟩
  rw [Window.contains_between_iff account name (by simpa using hstart) (by simpa using hstop) ht,
    Instant.truncateToHour_le_iff, Instant.truncateToHour_lt_iff]
  simp

/-- From the last hour of 1999 up to the leap day of 2000, for an object in the hour before the
end and with the mark of a directory and a character of two bytes in its name. -/
theorem Query.ofRange_selects_hour_of_leap_day :
    let start : Instant := ⟨946684799, 1999999999, by decide, by decide, by decide⟩
    let stop : Instant := ⟨951868799, 5, by decide, by decide, by decide⟩
    let t : Instant := ⟨951865199, 0, by decide, by decide, by decide⟩
    start ≤ stop ∧ start.date.HasFourDigitYear ∧ stop.date.HasFourDigitYear ∧
      t.date.HasFourDigitYear ∧
      ∃ q, Query.ofRange "a/b" start stop = .ok q ∧
        q.contains (partitionOffset "a/b" t ++ "/é.json") = true := by
  intro start stop t
  have hle : start ≤ stop := by decide
  have hstart : start.date.HasFourDigitYear := by decide +kernel
  have hstop : stop.date.HasFourDigitYear := by decide +kernel
  have ht : t.date.HasFourDigitYear := by decide +kernel
  obtain ⟨q, hq, hsel⟩ := Query.ofRange_selects_hours "a/b" "/é.json" hle hstart hstop ht
  exact ⟨hle, hstart, hstop, ht, q, hq, hsel.2 ⟨by decide, by decide⟩⟩

end HourlyUsage
