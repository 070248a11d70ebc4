import Simuless.Io.Tcp

/-! What the parser of the URI accepts.

The host is what stands before the last colon, and the port is what `atoi`
reads behind it. A number is read leniently: blanks and a sign may precede the
digits and anything may follow them.
-/

set_option autoImplicit false

namespace Simuless.Io

open Foundation

/-- `smls_io_tcp_parse_url`: the return value and the object afterwards. -/
def ioTcpParseUrl (atoi : Bytes → Int) (io : Option SmlsIo) (url : Option Bytes) : Int × Option SmlsIo :=
  match io, url with
  | some io, some url =>
      match io.priv with
      | none => (IoStatus.invalidState.code, some io)
      | some ctx =>
          let (parsed, ctx) := tcpParseUrlBy atoi ctx url
          (parsed, some { io with priv := some ctx })
  | _, _ => (IoStatus.invalidArg.code, io)

/-- What the C library says of `atoi`: a value that fits an `int` is the one `strtol` gives. -/
def ReadsInt (atoi : Bytes → Int) : Prop :=
  ∀ text, -2 ^ 31 ≤ strtol text → strtol text < 2 ^ 31 → atoi text = strtol text

/-- `tcp://host:port` with a host that fits the context and a port of decimal digits. -/
structure Spelled (url host : Bytes) (port : Nat) : Prop where
  text : ∃ digits, url = tcpPrefix ++ (host ++ 58 :: digits) ∧ digits ≠ [] ∧
    (∀ char ∈ digits, isDigit char) ∧ digitsValue digits = port
  host : 1 ≤ host.length ∧ host.length ≤ 63
  port : 1 ≤ port ∧ port ≤ 65535

/-- The parser accepts what is spelled by the grammar and takes host and port from it. -/
structure ParsesGrammar (atoi : Bytes → Int) (io : SmlsIo) (url : Bytes) : Prop where
  accepts : (ioTcpParseUrl atoi (some io) (some url)).1 = IoStatus.ok.code ↔
    ∃ host port, Spelled url host port
  takes : (ioTcpParseUrl atoi (some io) (some url)).1 = IoStatus.ok.code →
    ∀ host port, Spelled url host port → ∃ after ctx,
      (ioTcpParseUrl atoi (some io) (some url)).2 = some after ∧ after.priv = some ctx ∧
        ctx.host = host ∧ ctx.port.toNat = port ∧ (ctx.isServer ≠ 0 ↔ host = anyHost)

/-- Blanks, perhaps a plus sign, then digits of a port number with anything behind them. -/
def LooksLikePort (text : Bytes) : Prop :=
  ∃ blanks sign behind, text = blanks ++ (sign ++ behind) ∧ (∀ char ∈ blanks, isSpace char) ∧
    (sign = [] ∨ sign = [43]) ∧ 1 ≤ digitsValue behind ∧ digitsValue behind ≤ 65535

/-- The same, or a number out of range that `atoi` turns into a port number. -/
def TakenAsPort (atoi : Bytes → Int) (text : Bytes) : Prop :=
  LooksLikePort text ∨
    (strtol text < -2 ^ 31 ∨ 2 ^ 31 ≤ strtol text) ∧ 0 < atoi text ∧ atoi text ≤ 65535

/-- Behind a host of the right size stand digits only, of a value that fits an `int`,
or what is not taken as a port. -/
def PlainPort (atoi : Bytes → Int) (url : Bytes) : Prop :=
  ∀ host text, url = tcpPrefix ++ (host ++ 58 :: text) → 58 ∉ text → 1 ≤ host.length →
    host.length ≤ 63 → (∀ char ∈ text, isDigit char) ∧ digitsValue text < 2 ^ 31 ∨
      ¬ TakenAsPort atoi text

/-! The last colon. -/

theorem strrchr_none {chars : Bytes} {char : UInt8} : strrchr chars char = none ↔ char ∉ chars := by
  induction chars with
  | nil => simp [strrchr]
  | cons first rest ih =>
    rw [strrchr, List.mem_cons, not_or, ← ih, eq_comm (a := char)]
    cases strrchr rest char <;> simp

theorem strrchr_last {behind : Bytes} {char : UInt8} (last : char ∉ behind) (before : Bytes) :
    strrchr (before ++ char :: behind) char = some before.length := by
  induction before with
  | nil => rw [List.nil_append, strrchr, strrchr_none.mpr last, if_pos rfl]; rfl
  | cons first rest ih => rw [List.cons_append, strrchr, ih]; rfl

theorem strrchr_some {chars : Bytes} {char : UInt8} {i : Nat} (found : strrchr chars char = some i) :
    ∃ before behind, chars = before ++ char :: behind ∧ before.length = i ∧ char ∉ behind := by
  induction chars generalizing i with
  | nil => cases found
  | cons first rest ih =>
    rw [strrchr] at found
    cases later : strrchr rest char with
    | some j =>
      rw [later, Option.some.injEq] at found
      obtain ⟨before, behind, same, length, last⟩ := ih later
      exact ⟨first :: before, behind, by rw [same]; rfl, by rw [← found, ← length]; rfl, last⟩
    | none =>
      rw [later] at found
      by_cases here : first = char
      · rw [if_pos here, Option.some.injEq] at found
        exact ⟨[], rest, by rw [here]; rfl, found, strrchr_none.mp later⟩
      · rw [if_neg here] at found
        cases found

theorem drop_behind (host text : Bytes) : (host ++ 58 :: text).drop (host.length + 1) = text := by
  rw [← List.drop_drop, List.drop_left, List.drop_one, List.tail_cons]

/-- Two texts behind the last colon are the same. -/
theorem last_colon_unique {host host' text text' : Bytes} (last : 58 ∉ text) (last' : 58 ∉ text')
    (same : host ++ 58 :: text = host' ++ (58 :: text' : Bytes)) : host = host' ∧ text = text' := by
  have length : host.length = host'.length := by
    have found := strrchr_last last host
    rw [same, strrchr_last last' host', Option.some.injEq] at found
    exact found.symm
  obtain ⟨hosts, texts⟩ := List.append_inj same length
  exact ⟨hosts, (List.cons.inj texts).2⟩

/-! Numbers. -/

theorem digit_first {first : UInt8} (digit : isDigit first) :
    isSpace first = false ∧ first ≠ 45 ∧ first ≠ 43 := by
  have range : 48 ≤ first.toNat ∧ first.toNat ≤ 57 := by
    simp only [isDigit, Bool.and_eq_true, decide_eq_true_eq, UInt8.le_iff_toNat_le] at digit
    exact digit
  refine ⟨?_, ?_, ?_⟩
  · rw [Bool.eq_false_iff]
    intro space
    simp only [isSpace, Bool.or_eq_true, Bool.and_eq_true, decide_eq_true_eq,
      UInt8.le_iff_toNat_le, ← UInt8.toNat_inj] at space
    change first.toNat = 32 ∨ 9 ≤ first.toNat ∧ first.toNat ≤ 13 at space
    omega
  · rintro rfl
    exact absurd range.1 (by decide)
  · rintro rfl
    exact absurd range.1 (by decide)

/-- Only leading digits have a value. -/
theorem digitsValue_pos (text : Bytes) (positive : 0 < digitsValue text) :
    ∃ first rest, text = first :: rest ∧ isDigit first := by
  cases text with
  | nil => exact absurd positive (by decide)
  | cons first rest =>
    by_cases digit : isDigit first
    · exact ⟨first, rest, rfl, digit⟩
    · rw [digitsValue, List.takeWhile_cons_of_neg digit] at positive
      exact absurd positive (Nat.lt_irrefl 0)

section
variable (blanks : Bytes) (spaces : ∀ char ∈ blanks, isSpace char) {first : UInt8} {rest : Bytes}
include spaces

theorem strtol_blanks (other : isSpace first = false) :
    (blanks ++ first :: rest).dropWhile isSpace = first :: rest := by
  rw [List.dropWhile_append_of_pos spaces, List.dropWhile_cons_of_neg (by simp [other])]

theorem strtol_unsigned (digit : isDigit first) :
    strtol (blanks ++ first :: rest) = min (2 ^ 63 - 1) (digitsValue (first :: rest) : Int) := by
  obtain ⟨other, minus, plus⟩ := digit_first digit
  rw [strtol, strtol_blanks blanks spaces other]
  split
  case h_1 same => exact absurd (List.cons.inj same).1 minus
  case h_2 same => exact absurd (List.cons.inj same).1 plus
  case h_3 => rfl

theorem strtol_plus : strtol (blanks ++ 43 :: rest) = min (2 ^ 63 - 1) (digitsValue rest : Int) := by
  rw [strtol, strtol_blanks blanks spaces (by decide)]
  rfl

end

/-- What `strtol` reads as a port number. -/
theorem strtol_port {text : Bytes} : 0 < strtol text ∧ strtol text ≤ 65535 ↔ LooksLikePort text := by
  constructor
  · intro range
    have parts : text.takeWhile isSpace ++ text.dropWhile isSpace = text :=
      List.takeWhile_append_dropWhile
    have spaces := List.all_eq_true.mp (List.all_takeWhile (p := isSpace) (l := text))
    rw [strtol] at range
    split at range
    · omega
    case h_2 behind same =>
      rw [same] at parts
      exact ⟨_, [43], behind, parts.symm, spaces, Or.inr rfl, by omega, by omega⟩
    case h_3 =>
      exact ⟨_, [], text.dropWhile isSpace, parts.symm, spaces, Or.inl rfl, by omega, by omega⟩
  · rintro ⟨blanks, sign, behind, rfl, spaces, rfl | rfl, positive, limit⟩
    · obtain ⟨first, rest, rfl, digit⟩ := digitsValue_pos behind positive
      rw [List.nil_append, strtol_unsigned blanks spaces digit]
      omega
    · rw [List.singleton_append, strtol_plus blanks spaces]
      omega

/-- `atoi` gives a port number for exactly the texts that are taken as one. -/
theorem ReadsInt.taken {atoi : Bytes → Int} (reads : ReadsInt atoi) (text : Bytes) :
    0 < atoi text ∧ atoi text ≤ 65535 ↔ TakenAsPort atoi text := by
  rw [TakenAsPort, ← strtol_port]
  by_cases fits : -2 ^ 31 ≤ strtol text ∧ strtol text < 2 ^ 31
  · rw [reads text fits.1 fits.2]
    omega
  · omega

section
variable {text : Bytes} (digits : ∀ char ∈ text, isDigit char)
include digits

theorem digits_colon : 58 ∉ text := fun colon => absurd (digits 58 colon) (by decide)

/-- A port of plain digits is the number `atoi` reads. -/
theorem ReadsInt.plain {atoi : Bytes → Int} (reads : ReadsInt atoi) (small : digitsValue text < 2 ^ 31) :
    atoi text = digitsValue text := by
  have value : strtol text = digitsValue text := by
    cases text with
    | nil => rfl
    | cons first rest =>
      have read : strtol ([] ++ first :: rest) = _ :=
        strtol_unsigned [] (fun _ member => absurd member List.not_mem_nil)
          (digits first List.mem_cons_self)
      rw [List.nil_append] at read
      omega
  rw [← value]
  exact reads text (by omega) (by omega)

end

/-! The parser. -/

section
variable {atoi : Bytes → Int} {io : SmlsIo} {ctx : TcpCtx} {url : Bytes}

/-- Host and port text of a URL that the parser accepts. -/
structure Accepted (atoi : Bytes → Int) (url host text : Bytes) : Prop where
  url : url = tcpPrefix ++ (host ++ 58 :: text)
  last : 58 ∉ text
  host : 1 ≤ host.length ∧ host.length ≤ 63
  port : 0 < atoi text ∧ atoi text ≤ 65535

theorem tcpParseUrlBy_accepts {host text : Bytes} (accepted : Accepted atoi url host text) :
    tcpParseUrlBy atoi ctx url = (IoStatus.ok.code, { ctx with
      host := host
      port := .ofNat (atoi text).toNat
      isServer := if host = anyHost then 1 else 0 }) := by
  obtain ⟨rfl, last, size, port⟩ := accepted
  have room : ¬ (host.length = 0 ∨ hostSize ≤ host.length) := by
    unfold hostSize
    omega
  have inside : ¬ (atoi text ≤ 0 ∨ 65535 < atoi text) := by omega
  simp only [tcpParseUrlBy, List.take_left, List.drop_left, ne_eq, not_true, if_false,
    strrchr_last last host, room, drop_behind, inside]

theorem tcpParseUrlBy_ok : (tcpParseUrlBy atoi ctx url).1 = IoStatus.ok.code ↔
    ∃ host text, Accepted atoi url host text := by
  constructor
  · intro success
    simp only [tcpParseUrlBy] at success
    split at success
    · cases success
    case isFalse start =>
      rw [not_not] at start
      have whole := List.take_append_drop tcpPrefix.length url
      rw [start] at whole
      split at success
      · cases success
      case h_2 hostLen found =>
        split at success
        · cases success
        case isFalse room =>
          split at success
          · cases success
          case isFalse inside =>
            obtain ⟨host, text, same, length, last⟩ := strrchr_some found
            have behind : (url.drop tcpPrefix.length).drop (hostLen + 1) = text := by
              rw [same, ← length, drop_behind]
            rw [behind] at inside
            unfold hostSize at room
            exact ⟨host, text, by rw [← same, whole], last, by omega, by omega⟩
  · rintro ⟨host, text, accepted⟩
    rw [tcpParseUrlBy_accepts accepted]

theorem Spelled.accepted (reads : ReadsInt atoi) {host : Bytes} {port : Nat}
    (spelled : Spelled url host port) : ∃ text, Accepted atoi url host text ∧ atoi text = port := by
  obtain ⟨⟨digits, same, -, decimal, value⟩, size, range⟩ := spelled
  have read := reads.plain decimal (by omega)
  rw [value] at read
  exact ⟨digits, ⟨same, digits_colon decimal, size, by omega⟩, read⟩

/-- The parser accepts its grammar, and takes host and port from it, if and only if
nothing but digits is read as a port. -/
theorem parseUrl_exact (reads : ReadsInt atoi) (context : io.priv = some ctx) :
    ParsesGrammar atoi io url ↔ PlainPort atoi url := by
  have parsed : ioTcpParseUrl atoi (some io) (some url) =
      ((tcpParseUrlBy atoi ctx url).1, some { io with priv := some (tcpParseUrlBy atoi ctx url).2 }) := by
    simp only [ioTcpParseUrl, context]
  constructor
  · intro parses host text same last nonempty fits
    by_cases range : 0 < atoi text ∧ atoi text ≤ 65535
    case neg => exact Or.inr fun taken => range ((reads.taken text).mpr taken)
    left
    -- the port was read from this text, so the grammar must spell it
    have success : (ioTcpParseUrl atoi (some io) (some url)).1 = IoStatus.ok.code := by
      rw [parsed]
      exact tcpParseUrlBy_ok.mpr ⟨host, text, same, last, ⟨nonempty, fits⟩, range⟩
    obtain ⟨host', port, ⟨digits, same', -, decimal, value⟩, -, limit⟩ := parses.accepts.mp success
    rw [same] at same'
    obtain ⟨-, rfl⟩ :=
      last_colon_unique last (digits_colon decimal) (List.append_cancel_left same')
    exact ⟨decimal, by omega⟩
  · intro plain
    constructor
    case accepts =>
      rw [parsed]
      constructor
      · intro success
        obtain ⟨host, text, same, last, size, range⟩ := tcpParseUrlBy_ok.mp success
        rcases plain host text same last size.1 size.2 with ⟨decimal, small⟩ | outside
        · have read := reads.plain decimal small
          rw [read] at range
          obtain ⟨first, rest, shape, -⟩ := digitsValue_pos text (by omega)
          have nonempty : text ≠ [] := by
            rw [shape]
            exact List.cons_ne_nil _ _
          exact ⟨host, digitsValue text, ⟨text, same, nonempty, decimal, rfl⟩, size, by omega⟩
        · exact absurd ((reads.taken text).mp range) outside
      · rintro ⟨host, port, spelled⟩
        obtain ⟨text, accepted, -⟩ := spelled.accepted reads
        exact tcpParseUrlBy_ok.mpr ⟨host, text, accepted⟩
    case takes =>
      intro _ host port spelled
      obtain ⟨text, accepted, read⟩ := spelled.accepted reads
      have range := spelled.port
      rw [parsed, tcpParseUrlBy_accepts accepted, read]
      refine ⟨_, _, rfl, rfl, rfl, ?_, ?_⟩
      · rw [Int.toNat_natCast]
        exact UInt16.toNat_ofNat_of_lt' (by change port < 65536; omega)
      · by_cases server : host = anyHost <;> simp [server]

end

/-- An object with a fresh context. -/
def freshIo : SmlsIo := ⟨some .tcp, .none, some ⟨socketInvalid, socketInvalid, [], 0, 0, 0⟩⟩

theorem atoi_reads : ReadsInt atoi := fun _ low high => toInt_small low high

/-- `tcp://a:80`. -/
theorem parseUrl_exact_80 : ReadsInt atoi ∧
    (ParsesGrammar atoi freshIo (tcpPrefix ++ [97, 58, 56, 48]) ↔
      PlainPort atoi (tcpPrefix ++ [97, 58, 56, 48])) :=
  ⟨atoi_reads, parseUrl_exact atoi_reads rfl⟩

/-- `tcp://a:80x` is accepted with port 80. -/
theorem trailing_text_accepted :
    (ioTcpParseUrl atoi (some freshIo) (some (tcpPrefix ++ [97, 58, 56, 48, 120]))).1 = IoStatus.ok.code ∧
      ¬ ParsesGrammar atoi freshIo (tcpPrefix ++ [97, 58, 56, 48, 120]) := by
  refine ⟨by decide, ?_⟩
  intro parses
  obtain ⟨host, port, ⟨digits, same, -, decimal, -⟩, -, -⟩ := parses.accepts.mp (by decide)
  have split : [97] ++ 58 :: [56, 48, 120] = host ++ (58 :: digits : Bytes) :=
    List.append_cancel_left same
  obtain ⟨-, rfl⟩ := last_colon_unique (by decide) (digits_colon decimal) split
  exact absurd (decimal 120 (by decide)) (by decide)

end Simuless.Io
