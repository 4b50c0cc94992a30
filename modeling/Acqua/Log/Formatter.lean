import Acqua.Ctype
import Acqua.Library.OutputStream

/-! `formatter.hpp` over `char`: what `format` does to the stream for a format string. The texts
that the date and time library makes are taken as they are. -/

namespace Acqua

namespace Log

/-- `severity_type`. -/
inductive Severity
  | trace
  | debug
  | info
  | notice
  | warning
  | error
  | critical
  | alert
  | emerg
  | disable

def Severity.str : Severity → List UInt8
  | .trace => octets "trace"
  | .debug => octets "debug"
  | .info => octets "info"
  | .notice => octets "notice"
  | .warning => octets "warning"
  | .error => octets "error"
  | .critical => octets "critical"
  | .alert => octets "alert"
  | .emerg => octets "emerg"
  | .disable => []

/-- A `logging_buffer`, or a `loggable_buffer` with the name of its type as `info`; `tid` is the
text of the thread's identity. -/
structure Buffer where
  level : Severity
  func : List UInt8
  file : List UInt8
  line : Nat
  tid : List UInt8
  info : List UInt8
  buffer : List UInt8

/-- The date, the time of day and the zone of one moment. `month`, `dayOfWeek` and `dateTime` are
what the facets of a stream put for them. -/
structure Moment where
  weekdayLong : List UInt8
  weekdayShort : List UInt8
  monthLong : List UInt8
  isoExtended : List UInt8
  posixString : List UInt8
  month : List UInt8
  dayOfWeek : List UInt8
  dateTime : List UInt8
  year : Nat
  day : Nat
  dayOfYear : Nat
  weekNumber : Nat
  hours : Nat
  minutes : Nat
  seconds : Nat
  totalSeconds : Nat
  totalMilliseconds : Nat
  totalMicroseconds : Nat
  baseUtcOffset : Int

/-- The letters that stand behind `%` and its options. -/
inductive Directive
  | percent
  | weekdayName
  | abbreviatedWeekdayName
  | monthName
  | abbreviatedMonthName
  | century
  | dateTime
  | day
  | simpleDateString
  | loggerFunction
  | hour24Clock
  | hour12Clock
  | loggerInfo
  | dayOfYear
  | levelName
  | loggerLocation
  | minute
  | month
  | amPmString
  | lowerAmPmString
  | second
  | unixEpoch
  | simpleTimeString
  | threadId
  | millisecond
  | microsecond
  | loggerMessage
  | weekOfYear
  | dayOfWeek
  | year
  | yearWithoutCentury
  | timeZoneName
  | baseUtcOffset

/-- The cases of the `switch`. -/
def directive (ch : UInt8) : Option Directive :=
  if ch = chr '%' then some .percent
  else if ch = chr 'A' then some .weekdayName
  else if ch = chr 'a' then some .abbreviatedWeekdayName
  else if ch = chr 'B' then some .monthName
  else if ch = chr 'b' then some .abbreviatedMonthName
  else if ch = chr 'C' then some .century
  else if ch = chr 'c' then some .dateTime
  else if ch = chr 'd' then some .day
  else if ch = chr 'F' then some .simpleDateString
  else if ch = chr 'f' then some .loggerFunction
  else if ch = chr 'H' then some .hour24Clock
  else if ch = chr 'I' then some .hour12Clock
  else if ch = chr 'i' then some .loggerInfo
  else if ch = chr 'j' then some .dayOfYear
  else if ch = chr 'L' then some .levelName
  else if ch = chr 'l' then some .loggerLocation
  else if ch = chr 'M' then some .minute
  else if ch = chr 'm' then some .month
  else if ch = chr 'P' then some .amPmString
  else if ch = chr 'p' then some .lowerAmPmString
  else if ch = chr 'S' then some .second
  else if ch = chr 's' then some .unixEpoch
  else if ch = chr 'T' then some .simpleTimeString
  else if ch = chr 't' then some .threadId
  else if ch = chr 'U' then some .millisecond
  else if ch = chr 'u' then some .microsecond
  else if ch = chr 'v' then some .loggerMessage
  else if ch = chr 'W' then some .weekOfYear
  else if ch = chr 'w' then some .dayOfWeek
  else if ch = chr 'Y' then some .year
  else if ch = chr 'y' then some .yearWithoutCentury
  else if ch = chr 'Z' then some .timeZoneName
  else if ch = chr 'z' then some .baseUtcOffset
  else none

abbrev Op : Type := StreamOp UInt8

def decimal (n : Nat) : List UInt8 := octets (Nat.repr n)

/-- `'0' + n` as a `char`. -/
def digit (n : Nat) : UInt8 := chr '0' + UInt8.ofNat n

/-- The `str` of `replace_simple_time_string`. -/
def simpleTimeString (t : Nat) : List UInt8 :=
  [digit (t / 10 / 6 / 10 / 6 / 10), digit (t / 10 / 6 / 10 / 6 % 10), chr ':',
    digit (t / 10 / 6 / 10 % 6), digit (t / 10 / 6 % 10), chr ':',
    digit (t / 10 % 6), digit (t % 10)]

/-- The `tz` of `replace_base_utc_offset`. -/
def baseUtcOffsetString (off : Int) : List UInt8 :=
  let sign := if off < 0 then chr '-' else chr '+'
  let off := (off.tdiv 60).natAbs
  [sign, digit (off / 10 / 6 / 10), digit (off / 10 / 6 % 10), digit (off / 10 % 6),
    digit (off % 10)]

section Format

variable (r : Buffer) (now : Moment)

/-- The functions `replace_weekday_name` to `replace_base_utc_offset`. -/
def replace : Directive → List Op
  | .percent => [.insert [chr '%']]
  | .weekdayName => [.insert now.weekdayLong]
  | .abbreviatedWeekdayName => [.insert now.weekdayShort]
  | .monthName => [.insert now.monthLong]
  | .abbreviatedMonthName => [.insert now.monthLong]
  | .century => [.insert (decimal (now.year / 100 + 1))]
  | .dateTime => [.copy now.dateTime]
  | .day => [.insert (decimal now.day)]
  | .simpleDateString => [.insert now.isoExtended]
  | .loggerFunction => [.copy r.func]
  | .hour24Clock => [.insert (decimal now.hours)]
  | .hour12Clock => [.insert (decimal (now.hours % 12))]
  | .loggerInfo => [.copy r.info]
  | .dayOfYear => [.insert (decimal now.dayOfYear)]
  | .levelName => [.insert r.level.str]
  | .loggerLocation => [.copy r.file, .insert [chr ':'], .insert (decimal r.line)]
  | .minute => [.insert (decimal now.minutes)]
  | .month => [.copy now.month]
  | .amPmString => []
  | .lowerAmPmString => []
  | .second => [.insert (decimal now.seconds)]
  | .unixEpoch => []
  | .simpleTimeString => [.insert (simpleTimeString now.totalSeconds)]
  | .threadId => [.insert r.tid]
  | .millisecond =>
    [.setfill (chr '0'), .setw 3, .insert (decimal (now.totalMilliseconds % 1000))]
  | .microsecond =>
    [.setfill (chr '0'), .setw 6, .insert (decimal (now.totalMicroseconds % 1000000))]
  | .loggerMessage => [.drain]
  | .weekOfYear => [.insert (decimal now.weekNumber)]
  | .dayOfWeek => [.copy now.dayOfWeek]
  | .year => [.insert (decimal now.year)]
  | .yearWithoutCentury => [.insert (decimal (now.year % 100))]
  | .timeZoneName => [.insert now.posixString]
  | .baseUtcOffset => [.insert (baseUtcOffsetString now.baseUtcOffset)]

/-- `w = w * 10 + fmt[end++] - '0'` on an `int`. -/
def nextWidth (w : Int) (ch : UInt8) : Int := (w * 10 + (ch.toNat - '0'.toNat)).bmod (2 ^ 32)

/-- The digits between `%` and its letter. A width below zero pads as none does. -/
def widthOps (digits : List UInt8) : List Op :=
  match digits with
  | [] => []
  | ch :: _ =>
    (if ch = chr '0' then [.setfill (chr '0')] else []) ++
      [.setw (digits.foldl nextWidth 0).toNat]

/-- What the `switch` does on `ch`, where `next` is `fmt[end]` behind it. -/
def letterOps (ch next : UInt8) : List Op :=
  match directive ch with
  | some d => replace r now d
  | none => [.insert [chr '%'], .insert [next]]

/-- The loop of `format`: what it does to the stream. `fmt[fmt.size()]` is the NUL. -/
def scan (fmt : List UInt8) : List Op :=
  let text := fmt.takeWhile fun ch => ch ≠ chr '%'
  match _hpercent : fmt.dropWhile fun ch => ch ≠ chr '%' with
  | [] => [.write text]
  | _ :: rest =>
    let left := decide (rest.head? = some (chr '-'))
    let rest := if left then rest.tail else rest
    .write text :: (if left then [.left] else []) ++ widthOps (rest.takeWhile isdigit) ++
      match _hletter : rest.dropWhile isdigit with
      | [] => []
      | ch :: rest => letterOps r now ch (rest.headD 0) ++ scan rest
termination_by fmt.length
decreasing_by
  rename_i percent behind letter
  have htext := List.length_dropWhile_le (fun ch => decide (ch ≠ chr '%')) fmt
  have hdigits := List.length_dropWhile_le isdigit letter
  have hflag : letter.length ≤ behind.length := by
    dsimp only [letter]
    split_ifs
    · exact (List.length_tail ▸ Nat.sub_le behind.length 1)
    · exact Nat.le_refl _
  rw [_hpercent, List.length_cons] at htext
  rw [_hletter, List.length_cons] at hdigits
  omega

/-- A new stream. -/
def fresh : OutputState UInt8 := ⟨chr ' ', false, 0, true, r.buffer⟩

def format (fmt : List UInt8) : List UInt8 := output (scan r now fmt) (fresh r)

end Format

end Log

end Acqua
