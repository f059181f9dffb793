import MicrokernelBenchmark.PortScan

/-!
# The port checks on Ubuntu

`ubuntu_check_tcp_ports` and `ubuntu_check_udp_ports` run the same loop on the
output of `ss`. A line is taken for the header when the text "Local" occurs
anywhere in it, and the first token with a colon for the local address.

A line of the grammar has columns without a colon, the local address and the
rest with the peer address. All ports come out right exactly when no socket line
contains that text, which the name of an interface can bring in, and `atoi` is
defined on every port.
-/
namespace MicrokernelBenchmark.UbuntuPorts
open CString DecimalText PortScan

def isHeader (line : List UInt8) : Bool := strstr line (bytes "Local")

def checkLine (s : Scan) (line : List UInt8) : Option Scan :=
  if isHeader line then some { s with skipped := s.skipped + 1 }
  else match (tokens line).find? fun token => 58 ∈ token with
    | none => some s
    | some token => checkToken 58 token s

def ubuntuCheckTcpPorts (fp : Option (List UInt8)) : Option (List Detected) :=
  checkPorts checkLine "TCP" fp

def ubuntuCheckUdpPorts (fp : Option (List UInt8)) : Option (List Detected) :=
  checkPorts checkLine "UDP" fp

/-- Each host with or without an interface, which for an IPv6 address stands before or behind
the closing bracket. -/
inductive Host where
  | any
  | anyOn (interface : List UInt8)
  | ipv4 (literal : List UInt8)
  | ipv4On (literal interface : List UInt8)
  | ipv6 (literal : List UInt8)
  | scopedInside (literal interface : List UInt8)
  | scopedOutside (literal interface : List UInt8)
deriving DecidableEq, Repr

namespace Host

def text : Host → List UInt8
  | any => bytes "*"
  | anyOn interface => bytes "*%" ++ interface
  | ipv4 literal => literal
  | ipv4On literal interface => literal ++ bytes "%" ++ interface
  | ipv6 literal => bytes "[" ++ literal ++ bytes "]"
  | scopedInside literal interface => bytes "[" ++ literal ++ bytes "%" ++ interface ++ bytes "]"
  | scopedOutside literal interface => bytes "[" ++ literal ++ bytes "]%" ++ interface

def IsIpv4 (literal : List UInt8) : Prop := ∀ b ∈ literal, isDigit b = true ∨ b ∈ bytes "."

def IsIpv6 (literal : List UInt8) : Prop :=
  ∀ b ∈ literal, isDigit b = true ∨ b ∈ bytes "abcdefABCDEF:."

def IsInterface (name : List UInt8) : Prop := ∀ b ∈ name, isSpace b = false ∧ b ∉ bytes ":/"

instance (literal : List UInt8) : Decidable (IsIpv4 literal) :=
  inferInstanceAs (Decidable (∀ b ∈ literal, _))

instance (literal : List UInt8) : Decidable (IsIpv6 literal) :=
  inferInstanceAs (Decidable (∀ b ∈ literal, _))

instance (name : List UInt8) : Decidable (IsInterface name) :=
  inferInstanceAs (Decidable (∀ b ∈ name, _))

def Valid : Host → Prop
  | any => True
  | anyOn interface => IsInterface interface
  | ipv4 literal => IsIpv4 literal
  | ipv4On literal interface => IsIpv4 literal ∧ IsInterface interface
  | ipv6 literal => IsIpv6 literal
  | scopedInside literal interface | scopedOutside literal interface =>
      IsIpv6 literal ∧ IsInterface interface

instance : ∀ h : Host, Decidable h.Valid
  | any => isTrue trivial
  | anyOn interface => inferInstanceAs (Decidable (IsInterface interface))
  | ipv4 literal => inferInstanceAs (Decidable (IsIpv4 literal))
  | ipv4On literal interface =>
      inferInstanceAs (Decidable (IsIpv4 literal ∧ IsInterface interface))
  | ipv6 literal => inferInstanceAs (Decidable (IsIpv6 literal))
  | scopedInside literal interface =>
      inferInstanceAs (Decidable (IsIpv6 literal ∧ IsInterface interface))
  | scopedOutside literal interface =>
      inferInstanceAs (Decidable (IsIpv6 literal ∧ IsInterface interface))

end Host

/-- A line for a socket. Behind the blank after the local address stands the peer
address with whatever follows it. -/
structure SocketLine where
  indent : ℕ
  columns : List Column
  host : Host
  port : Port
  rest : List UInt8

namespace SocketLine

def localAddress (l : SocketLine) : List UInt8 := l.host.text ++ 58 :: l.port.text

def text (l : SocketLine) : List UInt8 :=
  List.replicate l.indent 32 ++
    (l.columns.flatMap Column.padded ++ (l.localAddress ++ 32 :: l.rest))

structure Valid (l : SocketLine) : Prop where
  columns : ∀ c ∈ l.columns, c.Valid ∧ 58 ∉ c.text
  host : l.host.Valid
  port : l.port.Valid
  rest : 10 ∉ l.rest
  noNul : 0 ∉ l.text
  short : l.text.length < lineSize

end SocketLine

inductive Line where
  | header (text : List UInt8)
  | socket (l : SocketLine)

def Line.text : Line → List UInt8
  | header text => text
  | socket l => l.text

/-- The output of `ss`: a header, if there is one, and the socket lines. -/
structure Listing where
  header : Option (List UInt8)
  sockets : List SocketLine

namespace Listing

structure Valid (l : Listing) : Prop where
  header : ∀ text ∈ l.header,
    isHeader text = true ∧ 10 ∉ text ∧ 0 ∉ text ∧ text.length < lineSize
  sockets : ∀ socket ∈ l.sockets, socket.Valid

def lines (l : Listing) : List Line := l.header.toList.map Line.header ++ l.sockets.map Line.socket

def output (l : Listing) : List UInt8 := l.lines.flatMap fun line => line.text ++ [10]

def expectedPorts (l : Listing) : List ℤ := expected (l.sockets.map SocketLine.port)

end Listing

/-- Both checks print the local ports, and only the header has been skipped. -/
structure Exact (l : Listing) : Prop where
  tcp : ubuntuCheckTcpPorts (some l.output) = some (l.expectedPorts.map (Detected.mk "TCP"))
  udp : ubuntuCheckUdpPorts (some l.output) = some (l.expectedPorts.map (Detected.mk "UDP"))
  skipped : (scanLines checkLine l.output).map Scan.skipped = some l.header.toList.length

/-- No blank and no newline stands in a host. -/
theorem Host.not_mem_text {h : Host} (hv : h.Valid) {b : UInt8} (hb : b = 32 ∨ b = 10) :
    b ∉ h.text := by
  have hv4 : ∀ literal, IsIpv4 literal → b ∉ literal := by
    intro literal hliteral hmem
    have hdigit := hliteral b hmem
    rcases hb with rfl | rfl <;> exact absurd hdigit (by decide)
  have hv6 : ∀ literal, IsIpv6 literal → b ∉ literal := by
    intro literal hliteral hmem
    have hdigit := hliteral b hmem
    rcases hb with rfl | rfl <;> exact absurd hdigit (by decide)
  have hinterface : ∀ name, IsInterface name → b ∉ name := by
    intro name hname hmem
    have hspace := (hname b hmem).1
    rcases hb with rfl | rfl <;> cases hspace
  have hstar : b ∉ bytes "*" := by rcases hb with rfl | rfl <;> decide
  have hopen : b ∉ bytes "[" := by rcases hb with rfl | rfl <;> decide
  have hclose : b ∉ bytes "]" := by rcases hb with rfl | rfl <;> decide
  have hpercent : b ∉ bytes "%" := by rcases hb with rfl | rfl <;> decide
  have hbehind : b ∉ bytes "]%" := by rcases hb with rfl | rfl <;> decide
  have hon : b ∉ bytes "*%" := by rcases hb with rfl | rfl <;> decide
  cases h with
  | any => exact hstar
  | anyOn interface => simp [Host.text, hon, hinterface interface hv]
  | ipv4 literal => exact hv4 literal hv
  | ipv4On literal interface =>
      simp [Host.text, hpercent, hv4 literal hv.1, hinterface interface hv.2]
  | ipv6 literal => simp [Host.text, hopen, hclose, hv6 literal hv]
  | scopedInside literal interface =>
      simp [Host.text, hopen, hclose, hpercent, hv6 literal hv.1, hinterface interface hv.2]
  | scopedOutside literal interface =>
      simp [Host.text, hopen, hbehind, hv6 literal hv.1, hinterface interface hv.2]

namespace SocketLine
variable {l : SocketLine}

theorem Valid.localAddress (hl : l.Valid) {b : UInt8} (hb : b = 32 ∨ b = 10) :
    b ∉ l.localAddress := by
  have hhost := l.host.not_mem_text hl.host hb
  have hport : b ∉ l.port.text := by
    rcases hb with rfl | rfl <;> exact l.port.not_mem_text hl.port (by decide) (by decide)
  have hcolon : b ≠ 58 := by rcases hb with rfl | rfl <;> decide
  simp [SocketLine.localAddress, hhost, hport, hcolon]

theorem Valid.newline_not_mem (hl : l.Valid) : 10 ∉ l.text := by
  have hcolumns := newline_not_mem_columns fun c hc => (hl.columns c hc).1
  have hlocal := hl.localAddress (.inr rfl)
  simp [SocketLine.text, List.mem_replicate, hcolumns, hlocal, hl.rest]

/-- The first token with a colon is the local address. -/
theorem Valid.find_token (hl : l.Valid) (tail : List UInt8) :
    ((tokens (l.text ++ tail)).find? fun token => 58 ∈ token) = some l.localAddress := by
  have hne : l.localAddress ≠ [] := by simp [SocketLine.localAddress]
  have hsplit : l.text ++ tail = List.replicate l.indent 32 ++
      (l.columns.flatMap Column.padded ++ (l.localAddress ++ 32 :: (l.rest ++ tail))) := by
    simp [SocketLine.text]
  have hcolumns : ((l.columns.map Column.text).find? fun token => decide (58 ∈ token)) = none := by
    rw [List.find?_eq_none]
    intro token htoken
    obtain ⟨c, hc, rfl⟩ := List.mem_map.mp htoken
    simpa using (hl.columns c hc).2
  rw [hsplit, tokens_spaces, tokens_columns fun c hc => (hl.columns c hc).1,
    tokens_word (hl.localAddress (.inl rfl)) hne, List.find?_append, hcolumns, Option.none_or,
    List.find?_cons_of_pos]
  simp [SocketLine.localAddress]

end SocketLine

theorem checkLine_socket {l : SocketLine} (hl : l.Valid) (tail : List UInt8) (s : Scan)
    (hlocal : isHeader (l.text ++ tail) = false) :
    checkLine s (l.text ++ tail) =
      if l.port.Representable then some (s.reportAll [l.port]) else none := by
  rw [checkLine, hlocal, hl.find_token]
  exact checkToken_port _ hl.port (by decide) (by decide) s

theorem isHeader_newline (text : List UInt8) : isHeader (text ++ [10]) = isHeader text :=
  strstr_newline text (by decide) (by decide)

/-- What a line does to the scan, whether it is read with its newline or without. -/
def effect (s : Scan) : Line → Option Scan
  | .header _ => some { s with skipped := s.skipped + 1 }
  | .socket l =>
      if isHeader l.text then some { s with skipped := s.skipped + 1 }
      else if l.port.Representable then some (s.reportAll [l.port]) else none

theorem checkLine_effect {l : SocketLine} (hl : l.Valid) (s : Scan) :
    checkLine s l.text = effect s (.socket l) ∧
      checkLine s (l.text ++ [10]) = effect s (.socket l) := by
  rw [effect]
  by_cases hheader : isHeader l.text = true
  · have hnewline : isHeader (l.text ++ [10]) = true := (isHeader_newline l.text).trans hheader
    simp [checkLine, hheader, hnewline]
  · have hheader : isHeader l.text = false := by simpa using hheader
    have hnewline : isHeader (l.text ++ [10]) = false := (isHeader_newline l.text).trans hheader
    have hplain := checkLine_socket hl [] s (by simpa using hheader)
    rw [List.append_nil] at hplain
    rw [hplain, checkLine_socket hl [10] s hnewline, hheader]
    exact ⟨rfl, rfl⟩

theorem scanLines_output {l : Listing} (hl : l.Valid) :
    scanLines checkLine l.output = l.lines.foldlM effect {} := by
  have hcases : ∀ line ∈ l.lines, (∃ text ∈ l.header, line = .header text) ∨
      ∃ socket ∈ l.sockets, line = .socket socket := by
    intro line hline
    rcases List.mem_append.mp hline with hline | hline
    · obtain ⟨text, htext, rfl⟩ := List.mem_map.mp hline
      exact .inl ⟨text, Option.mem_toList.mp htext, rfl⟩
    · obtain ⟨socket, hsocket, rfl⟩ := List.mem_map.mp hline
      exact .inr ⟨socket, hsocket, rfl⟩
  apply foldlM_pieces
  · intro line hline
    rcases hcases line hline with ⟨text, htext, rfl⟩ | ⟨socket, hsocket, rfl⟩
    · exact (hl.header text htext).2.1
    · exact (hl.sockets socket hsocket).newline_not_mem
  · intro line hline
    rcases hcases line hline with ⟨text, htext, rfl⟩ | ⟨socket, hsocket, rfl⟩
    · exact (hl.header text htext).2.2.2
    · exact (hl.sockets socket hsocket).short
  · intro line hline s
    rcases hcases line hline with ⟨text, htext, rfl⟩ | ⟨socket, hsocket, rfl⟩
    · simp [checkLine, Line.text, (hl.header text htext).1, effect]
    · exact (checkLine_effect (hl.sockets socket hsocket) s).1
  · intro line hline s
    rcases hcases line hline with ⟨text, htext, rfl⟩ | ⟨socket, hsocket, rfl⟩
    · simp [checkLine, Line.text, isHeader_newline, (hl.header text htext).1, effect]
    · exact (checkLine_effect (hl.sockets socket hsocket) s).2
  · intro s
    rfl

/-- Without a skipped or an undefined line the scan collects all ports. -/
theorem foldlM_sockets {sockets : List SocketLine} (s : Scan)
    (hheader : ∀ l ∈ sockets, isHeader l.text = false)
    (hport : ∀ l ∈ sockets, l.port.Representable) :
    (sockets.map Line.socket).foldlM effect s =
      some (s.reportAll (sockets.map SocketLine.port)) := by
  induction sockets generalizing s with
  | nil => rfl
  | cons l sockets ih =>
      have hl : effect s (.socket l) = some (s.reportAll [l.port]) := by
        rw [effect, hheader l List.mem_cons_self, if_neg Bool.false_ne_true,
          if_pos (hport l List.mem_cons_self)]
      rw [List.map_cons, List.foldlM_cons, hl]
      simp only [Option.bind_eq_bind, Option.bind_some]
      rw [ih _ (fun k hk => hheader k (List.mem_cons_of_mem l hk))
        (fun k hk => hport k (List.mem_cons_of_mem l hk)), List.map_cons, reportAll_cons]

/-- A scan that comes to its end has counted the skipped lines and found every
other port representable. -/
theorem of_foldlM_sockets {sockets : List SocketLine} {s t : Scan}
    (h : (sockets.map Line.socket).foldlM effect s = some t) :
    t.skipped = s.skipped + sockets.countP (fun l => isHeader l.text) ∧
      ∀ l ∈ sockets, isHeader l.text = false → l.port.Representable := by
  induction sockets generalizing s with
  | nil =>
      have heq : s = t := by simpa using h
      simp [heq]
  | cons l sockets ih =>
      rw [List.map_cons, List.foldlM_cons] at h
      obtain ⟨u, hu, h⟩ := Option.bind_eq_some_iff.mp h
      obtain ⟨hskipped, hport⟩ := ih h
      rw [effect] at hu
      split at hu
      case isTrue hheader =>
        rw [← Option.some.inj hu] at hskipped
        refine ⟨?_, ?_⟩
        · simp only [hskipped, List.countP_cons, hheader, if_true]
          omega
        · intro k hk hkheader
          rcases List.mem_cons.mp hk with rfl | hk
          · rw [hheader] at hkheader
            cases hkheader
          · exact hport k hk hkheader
      case isFalse hheader =>
        split at hu
        case isTrue hrepresentable =>
          rw [← Option.some.inj hu] at hskipped
          refine ⟨?_, ?_⟩
          · simp [hskipped, hheader]
          · intro k hk hkheader
            rcases List.mem_cons.mp hk with rfl | hk
            · exact hrepresentable
            · exact hport k hk hkheader
        case isFalse => cases hu

theorem scanLines_eq {l : Listing} (hl : l.Valid) : scanLines checkLine l.output =
    (l.sockets.map Line.socket).foldlM effect { skipped := l.header.toList.length } := by
  rw [scanLines_output hl, Listing.lines, List.foldlM_append]
  cases l.header <;> rfl

/-- All ports come out right exactly when "Local" occurs in no socket line and
every port is an `int`. -/
theorem exact_iff (l : Listing) (hl : l.Valid) :
    Exact l ↔ ∀ socket ∈ l.sockets,
      isHeader socket.text = false ∧ socket.port.Representable := by
  constructor
  · rintro ⟨-, -, hskipped⟩ socket hsocket
    rw [scanLines_eq hl] at hskipped
    obtain ⟨t, ht, hcount⟩ := Option.map_eq_some_iff.mp hskipped
    obtain ⟨htotal, hport⟩ := of_foldlM_sockets ht
    have hzero : l.sockets.countP (fun socket => isHeader socket.text) = 0 := by
      simp only at htotal
      omega
    have hheader : isHeader socket.text = false := by
      simpa using List.countP_eq_zero.mp hzero socket hsocket
    exact ⟨hheader, hport socket hsocket hheader⟩
  · intro h
    have hscan := foldlM_sockets { skipped := l.header.toList.length }
      (fun socket hsocket => (h socket hsocket).1) (fun socket hsocket => (h socket hsocket).2)
    rw [← scanLines_eq hl] at hscan
    refine ⟨?_, ?_, ?_⟩
    · rw [ubuntuCheckTcpPorts, checkPorts, hscan, Option.map_some, reportAll_printed]
      rfl
    · rw [ubuntuCheckUdpPorts, checkPorts, hscan, Option.map_some, reportAll_printed]
      rfl
    · rw [hscan, Option.map_some, skipped_reportAll]

def tcpColumns : List Column :=
  [.ofString "tcp" 2, .ofString "LISTEN" 0, .ofString "0" 4, .ofString "128" 0]

theorem valid_tcpColumns : ∀ c ∈ tcpColumns, c.Valid ∧ 58 ∉ c.text := by decide

/-- "tcp LISTEN 0 128" and an address, with the peer "[::]:*". -/
def listening (host : Host) (port : String) : SocketLine where
  indent := 0
  columns := tcpColumns
  host := host
  port := .number (bytes port)
  rest := bytes "[::]:*"

theorem newline_not_mem_peer : 10 ∉ bytes "[::]:*" := by decide

theorem valid_listening {host : Host} {port : String} (hhost : host.Valid)
    (hport : (Port.number (bytes port)).Valid) (hnul : 0 ∉ (listening host port).text)
    (hshort : (listening host port).text.length < lineSize) : (listening host port).Valid where
  columns := valid_tcpColumns
  host := hhost
  port := hport
  rest := newline_not_mem_peer
  noNul := hnul
  short := hshort

/-- The same port twice, once under an IPv4 and once under an IPv6 address. -/
def twice : Listing where
  header := some (bytes "Netid State Recv-Q Send-Q Local Address:Port Peer Address:Port")
  sockets := [listening (.ipv4 (bytes "127.0.0.1")) "631", listening (.ipv6 (bytes "::1")) "631",
    listening .any "22"]

theorem exact_twice : twice.expectedPorts = [631, 22] ∧ Exact twice := by
  refine ⟨by decide, (exact_iff twice ⟨?_, ?_⟩).mpr (by decide)⟩
  · decide
  · intro socket hsocket
    simp only [twice, List.mem_cons, List.not_mem_nil, or_false] at hsocket
    rcases hsocket with rfl | rfl | rfl <;>
      exact valid_listening (by decide +kernel) (by decide +kernel) (by decide) (by decide)

/-- A socket on a link-local address of an interface whose name contains "Local". -/
def onLocalInterface : Listing where
  header := none
  sockets := [listening (.scopedOutside (bytes "fe80::1") (bytes "Local0")) "22"]

theorem socket_skipped : ubuntuCheckTcpPorts (some onLocalInterface.output) = some [] ∧
    onLocalInterface.expectedPorts = [22] ∧ ¬ ∀ l : Listing, l.Valid → Exact l := by
  have hmissed : ubuntuCheckTcpPorts (some onLocalInterface.output) = some [] := by decide +kernel
  have hexpected : onLocalInterface.expectedPorts = [22] := by decide
  refine ⟨hmissed, hexpected, fun h => ?_⟩
  have hvalid : onLocalInterface.Valid := by
    refine ⟨by decide, fun socket hsocket => ?_⟩
    rw [List.mem_singleton.mp hsocket]
    exact valid_listening (by decide +kernel) (by decide +kernel) (by decide) (by decide)
  have htcp := (h onLocalInterface hvalid).tcp
  rw [hmissed, hexpected] at htcp
  cases htcp

end MicrokernelBenchmark.UbuntuPorts
