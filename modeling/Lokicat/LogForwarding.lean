import Lokicat.Delivery
import Lokicat.OpenwrtDates
import Lokicat.YearInference

/-!
# A printed log comes through

A log of records, each printed for OpenWrt or for journalctl, is forwarded record
by record: the requests and the waiting batch give back the instant and the message
of every record whose newline has been read, in the order of the log.
-/

namespace Lokicat.LogForwarding

open Batching Calendar Chunks CString Delivery Framing InputLogread Iteration LocalTime Logproto
  MainLoop MainSteps Message OpenwrtDates PrintedDates Rechunking Strptime Util YearInference

/-- A string that is part of one line. -/
def Plain (s : List Byte) : Prop := ∀ b ∈ s, isNul b = false ∧ isNewline b = false

instance (s : List Byte) : Decidable (Plain s) :=
  decidable_of_iff (s.all (fun b => !isNul b && !isNewline b) = true) (by simp [Plain])

theorem plain_append {s t : List Byte} (hs : Plain s) (ht : Plain t) : Plain (s ++ t) :=
  List.forall_mem_append.mpr ⟨hs, ht⟩

/-! ## Printed dates are part of one line -/

theorem plain_digit : ∀ n : Fin 10, isNul (digit n) = false ∧ isNewline (digit n) = false := by
  decide

theorem plain_digits {ns : List Nat} (h : ∀ n ∈ ns, n < 10) : Plain (ns.map digit) := by
  intro b hb
  obtain ⟨n, hn, rfl⟩ := List.mem_map.mp hb
  exact plain_digit ⟨n, h n hn⟩

theorem plain_twoDigits {pad : Byte} (hpad : isNul pad = false ∧ isNewline pad = false) {n : Int}
    (h : n < 100) : Plain (twoDigits pad n) := by
  have hones : isNul (digit (n.toNat % 10)) = false ∧ isNewline (digit (n.toNat % 10)) = false :=
    plain_digit ⟨n.toNat % 10, by omega⟩
  simp only [twoDigits]
  split
  · simpa [Plain] using ⟨hpad, hones⟩
  · have htens : isNul (digit (n.toNat / 10)) = false ∧ isNewline (digit (n.toNat / 10)) = false :=
      plain_digit ⟨n.toNat / 10, by omega⟩
    simpa [Plain] using ⟨htens, hones⟩

theorem plain_abbreviation {names : List (List Byte × List Byte)}
    (h : ∀ p ∈ names, Plain p.2) (i : Int) : Plain (abbreviation names i) := by
  rw [abbreviation, List.getD_eq_getElem?_getD]
  cases hget : names[i.toNat]? with
  | none => simp [Plain]
  | some p => exact h p (List.mem_of_getElem? hget)

theorem plain_decimal {y : Int} (h₁ : 1000 ≤ y) (h₂ : y ≤ 9999) : Plain (decimal y) := by
  have hten : ∀ n ∈ [y.toNat / 1000, y.toNat / 100 % 10, y.toNat / 10 % 10, y.toNat % 10],
      n < 10 := by
    simp only [List.mem_cons, List.not_mem_nil, or_false]
    omega
  rw [decimal_year h₁ h₂]
  exact plain_digits hten

/-- The formats write blanks and colons between the fields. -/
theorem plain_print {tm : Tm} (h : tm.Valid) {d : Directive}
    (char : ∀ c, d = .char c → isNul c = false ∧ isNewline c = false)
    (year : d = .year → 1000 ≤ 1900 + tm.tmYear ∧ 1900 + tm.tmYear ≤ 9999) :
    Plain (d.print tm) := by
  have hday := day_le h.1
  obtain ⟨-, hmon₁, hmon₂, hh₁, hh₂, hm₁, hm₂, hs₁, hs₂⟩ := h
  rw [date_of_month hmon₁ hmon₂] at hday
  simp only at hday
  cases d with
  | weekday => exact plain_abbreviation (by decide) _
  | month => exact plain_abbreviation (by decide) _
  | space => exact (by decide : Plain [32])
  | char c => exact List.forall_mem_singleton.mpr (char c rfl)
  | day => exact plain_twoDigits (by decide) (by omega)
  | hour => exact plain_twoDigits (by decide) (by omega)
  | minute => exact plain_twoDigits (by decide) (by omega)
  | second => exact plain_twoDigits (by decide) (by omega)
  | year => exact plain_decimal (year rfl).1 (year rfl).2

theorem plain_strftime {tm : Tm} {format : List Directive}
    (h : ∀ d ∈ format, Plain (d.print tm)) : Plain (strftime format tm) := by
  intro b hb
  obtain ⟨d, hd, hbd⟩ := List.mem_flatMap.mp hb
  exact h d hd b hbd

theorem plain_journalctl {tm : Tm} (h : tm.Valid) : Plain (strftime journalctlFormat tm) := by
  apply plain_strftime
  intro d hd
  apply plain_print h
  · rintro c rfl
    simp [journalctlFormat] at hd
    subst hd
    decide
  · rintro rfl
    simp [journalctlFormat] at hd

theorem plain_openwrt {tm : Tm} (h : tm.Valid)
    (year : 1000 ≤ 1900 + tm.tmYear ∧ 1900 + tm.tmYear ≤ 9999) :
    Plain (strftime openwrtFormat tm) := by
  apply plain_strftime
  intro d hd
  apply plain_print h
  · rintro c rfl
    simp [openwrtFormat] at hd
    subst hd
    decide
  · exact fun _ => year

/-! ## Records -/

/-- The two tools whose output is understood. -/
inductive Tool where
  | openwrt : Tool
  | journalctl : Tool
  deriving DecidableEq, Repr

structure Record where
  tool : Tool
  time : Int
  message : List Byte

/-- The line of a record. -/
def Record.print (z : ZoneRule) (r : Record) : List Byte :=
  let format := match r.tool with
    | .openwrt => openwrtFormat
    | .journalctl => journalctlFormat
  strftime format (localtime z r.time) ++ 32 :: r.message ++ [10]

/-- What should be forwarded for a record. -/
def Record.entry (r : Record) : Entry := ⟨some ⟨r.time, 0⟩, trim r.message⟩

/-- The message is part of one line. OpenWrt prints a year, of four digits; a line of journalctl
has none, and is parsed within a year, at no clock reading in a later year if it was
logged on 29 February. -/
structure Record.Legible (z : ZoneRule) (clock : Int → Prop) (r : Record) : Prop where
  message : Plain r.message
  openwrt : r.tool = .openwrt → 1000 ≤ 1900 + (localtime z r.time).tmYear ∧
    1900 + (localtime z r.time).tmYear ≤ 9999
  journalctl : r.tool = .journalctl → ∀ now, clock now → now - 365 * 86400 < r.time ∧
    r.time ≤ now ∧ ((localtime z r.time).tmMon = 1 ∧ (localtime z r.time).tmMday = 29 →
      (localtime z r.time).tmYear = (localtime z now).tmYear)

theorem isRecord_print {z : ZoneRule} {clock : Int → Prop} {r : Record} (h : r.Legible z clock) :
    NulFree (r.print z) ∧ IsRecord isNewline (r.print z) := by
  have hvalid := localtime_valid z r.time
  have hdate : ∃ s, r.print z = s ++ [10] ∧ Plain s := by
    refine ⟨_, rfl, plain_append ?_ ?_⟩
    · cases htool : r.tool with
      | openwrt => exact plain_openwrt hvalid (h.openwrt htool)
      | journalctl => exact plain_journalctl hvalid
    · exact List.forall_mem_cons.mpr ⟨by decide, h.message⟩
  obtain ⟨s, hprint, hplain⟩ := hdate
  rw [hprint]
  exact ⟨List.forall_mem_append.mpr ⟨fun b hb => (hplain b hb).1,
    List.forall_mem_singleton.mpr (by decide)⟩, s, 10, rfl, fun b hb => (hplain b hb).2, rfl⟩

theorem trim_framed (m : List Byte) : trim (32 :: m ++ [10]) = trim m := by
  have hblank : ∀ b ∈ [(32 : Byte)], isspace b = true := List.forall_mem_singleton.mpr (by decide)
  have hend : ∀ b ∈ [(10 : Byte)], isspace b = true := List.forall_mem_singleton.mpr (by decide)
  exact trim_padded hblank hend m

/-- The year of a recent date is this one or the last, and either is recovered. -/
theorem seconds_recent {off now t : Int} (recent : now - 365 * 86400 < t) (past : t ≤ now)
    (feb29 : (localtime (ZoneRule.constant off) t).tmMon = 1 ∧
      (localtime (ZoneRule.constant off) t).tmMday = 29 →
        (localtime (ZoneRule.constant off) t).tmYear =
          (localtime (ZoneRule.constant off) now).tmYear) :
    journalctlSeconds (ZoneRule.constant off) now
      (written (localtime (ZoneRule.constant off) t) Tm.zero) = t := by
  obtain hyear | hyear := year_this_or_last off recent past
  · exact seconds_this_year off past hyear
  · rw [seconds_last_year off recent hyear, if_neg]
    intro hfeb
    have hsame := feb29 hfeb
    omega

/-- The line of a record is parsed to its instant and its message. -/
theorem parsed_print {off now : Int} {clock : Int → Prop} {r : Record}
    (h : r.Legible (ZoneRule.constant off) clock) (hnow : clock now) :
    parsed (ZoneRule.constant off) now (r.print (ZoneRule.constant off)) = r.entry := by
  have hvalid := localtime_valid (ZoneRule.constant off) r.time
  rw [parsed, cstr_eq_self (isRecord_print h).1, Record.entry, ← trim_framed]
  cases htool : r.tool with
  | openwrt =>
    have hwday : 0 ≤ (localtime (ZoneRule.constant off) r.time).tmWday ∧
        (localtime (ZoneRule.constant off) r.time).tmWday ≤ 6 := by
      simp only [localtime, breakDown]
      omega
    have hdate := strptime_openwrt_date hvalid hwday (h.openwrt htool) (32 :: r.message ++ [10])
    have hwall : (Tm.wall { localtime (ZoneRule.constant off) r.time with tmIsdst := 0 }) =
        r.time + off := wall_localtime _ _
    simp only [Record.print, htool, List.append_assoc, inputLogreadParseLine] at hdate ⊢
    rw [hdate]
    simp only [mktime_constant, hwall, Int.add_sub_cancel, InputLogread.storeLine,
      strncpy_trimWhitespace]
    rfl
  | journalctl =>
    obtain ⟨hrecent, hpast, hfeb⟩ := h.journalctl htool now hnow
    simp only [Record.print, htool, List.append_assoc, inputLogreadParseLine,
      strptime_openwrt hvalid, strptime_journalctl hvalid, seconds_recent hrecent hpast hfeb,
      InputLogread.storeLine, strncpy_trimWhitespace]
    rfl

/-! ## Runs -/

section Log

variable {cfg : Config} {clock : Int → Prop} {rs : List Record} {turns : List Turn}
  (legible : ∀ r ∈ rs, r.Legible cfg.zone clock)
  (log : (runMain cfg turns).bytesRead <+: (rs.map (Record.print cfg.zone)).flatten)

include legible in
theorem records_print : ∀ x ∈ rs.map (Record.print cfg.zone), NulFree x ∧ IsRecord isNewline x := by
  intro x hx
  obtain ⟨r, hr, rfl⟩ := List.mem_map.mp hx
  exact isRecord_print (legible r hr)

include legible log in
/-- The records read are the first lines of the log. -/
theorem records_read :
    records isNewline (runMain cfg turns).bytesRead =
      (rs.take ((runMain cfg turns).bytesRead.countP isNewline)).map (Record.print cfg.zone) := by
  rw [List.map_take]
  exact records_prefix (fun x hx => (records_print legible x hx).2) log

include legible log in
theorem framed_read :
    (framed (runMain cfg turns)).1 =
      (rs.take ((runMain cfg turns).bytesRead.countP isNewline)).map (Record.print cfg.zone) := by
  have hfree : NulFree (rs.map (Record.print cfg.zone)).flatten := by
    intro b hb
    obtain ⟨x, hx, hbx⟩ := List.mem_flatten.mp hb
    exact (records_print legible x hx).1 b hbx
  rw [framed, scanChunks_eq_scan isNewline (by simp) fun b hb => hfree b (log.subset hb), ← records]
  exact records_read legible log

include legible log in
/-- The entries completed are those of the first records of the log. -/
theorem completed_log {off : Int} (zone : cfg.zone = ZoneRule.constant off)
    (clocks : ∀ t ∈ turns, ∀ k, clock (t.line k).parseClock) :
    completed (runMain cfg turns).trace =
      (rs.take ((runMain cfg turns).bytesRead.countP isNewline)).map Record.entry := by
  have hparses := (clocked_run cfg clocks).parses
  rw [framed_read legible log, Parses, List.forall₂_map_left_iff] at hparses
  have hlegible : ∀ r ∈ rs.take ((runMain cfg turns).bytesRead.countP isNewline),
      r.Legible cfg.zone clock := fun r hr => legible r (List.mem_of_mem_take hr)
  have hmap := map_eq_map_of_forall₂ (f := Record.entry) (g := id)
    ((List.forall₂_and_left _ _).mpr ⟨hlegible, hparses⟩) (by
      rintro r e - ⟨hr, now, hnow, rfl⟩
      rw [zone] at hr ⊢
      exact (parsed_print hr hnow).symm)
  rw [List.map_id] at hmap
  exact hmap.symm

end Log

/-- Whatever part of a printed log has been read, and in whatever pieces: the requests so far
and the waiting batch are the instants and messages of the records whose newline has been
read, in order, and those of all records once the whole log has been read. -/
theorem log_forwarded (cfg : Config) (off : Int) (clock : Int → Prop) (rs : List Record)
    (turns : List Turn) (zone : cfg.zone = ZoneRule.constant off)
    (legible : ∀ r ∈ rs, r.Legible cfg.zone clock)
    (clocks : ∀ t ∈ turns, ∀ k, clock (t.line k).parseClock)
    (log : (runMain cfg turns).bytesRead <+: (rs.map (Record.print cfg.zone)).flatten) :
    let st := runMain cfg turns
    st.batches.flatten ++ st.stream.entries =
        (rs.take (st.bytesRead.countP isNewline)).map Record.entry ∧
      (st.bytesRead = (rs.map (Record.print cfg.zone)).flatten →
        st.batches.flatten ++ st.stream.entries = rs.map Record.entry) := by
  intro st
  have hentries : st.batches.flatten ++ st.stream.entries =
      (rs.take (st.bytesRead.countP isNewline)).map Record.entry :=
    (handed_over cfg turns).trans (completed_log legible log zone clocks)
  refine ⟨hentries, fun hwhole => ?_⟩
  rw [hentries, hwhole, countP_records fun x hx => (records_print legible x hx).2, List.length_map,
    List.take_length]

/-- Records of 10 and 11 February 2019. -/
def winterLog : List Record := [⟨.openwrt, 1549809560, [97]⟩, ⟨.journalctl, 1549873961, [98]⟩]

/-- Their lines, two bytes a turn, half a minute after the second. -/
def winterTurns : List Turn :=
  (List.range 23).map fun i => readTurn 1549873991
    ((winterLog.map (Record.print utcConfig.zone)).flatten.drop (2 * i))

theorem winter_legible {clock : Int → Prop}
    (h : ∀ now, clock now → 1549873991 ≤ now ∧ now ≤ 1549874031) :
    ∀ r ∈ winterLog, r.Legible utcConfig.zone clock := by
  refine List.forall_mem_cons.mpr ⟨⟨by decide, fun _ => by decide, nofun⟩,
    List.forall_mem_singleton.mpr ⟨by decide, nofun, fun _ now hnow => ?_⟩⟩
  obtain ⟨hlow, hhigh⟩ := h now hnow
  have hrecent : now - 365 * 86400 < 1549873961 ∧ (1549873961 : Int) ≤ now := by omega
  exact ⟨hrecent.1, hrecent.2, fun hfeb => absurd hfeb (by decide)⟩

theorem winter_log_forwarded :
    let st := runMain utcConfig winterTurns
    st.batches.flatten ++ st.stream.entries =
        (winterLog.take (st.bytesRead.countP isNewline)).map Record.entry ∧
      (st.bytesRead = (winterLog.map (Record.print utcConfig.zone)).flatten →
        st.batches.flatten ++ st.stream.entries = winterLog.map Record.entry) := by
  apply log_forwarded utcConfig 0 (· = 1549873991) winterLog winterTurns rfl
  · exact winter_legible fun now hnow => by omega
  · intro t ht k
    obtain ⟨i, -, rfl⟩ := List.mem_map.mp ht
    rfl
  · decide +kernel

end Lokicat.LogForwarding
