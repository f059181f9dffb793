import MicrokernelBenchmark.PortScan

/-!
# The port checks on QNX

`qnx_check_tcp_ports` and `qnx_check_udp_ports` run the same loop on the output of
`netstat -an`: the fourth token of a line is the local address, and the port
stands behind its last dot. The ports come out right for every listing whose
ports are numbers of an `int`.
-/
namespace MicrokernelBenchmark.QnxPorts
open CString DecimalText PortScan

/-- The loop over the tokens with its counter `field`. -/
def localField (field : ℕ) : List (List UInt8) → Option (List UInt8)
  | [] => none
  | token :: rest => if field + 1 = 4 then some token else localField (field + 1) rest

def checkLine (s : Scan) (line : List UInt8) : Option Scan :=
  match localField 0 (tokens line) with
  | none => some s
  | some token => checkToken 46 token s

def qnxCheckTcpPorts (fp : Option (List UInt8)) : Option (List Detected) :=
  checkPorts checkLine "TCP" fp

def qnxCheckUdpPorts (fp : Option (List UInt8)) : Option (List Detected) :=
  checkPorts checkLine "UDP" fp

/-- Protocol, two queue counts and the local address; behind the blank after it
stand the remote address and possibly a state. The host is `*` or an address
with dots or colons in it. -/
structure NetstatLine where
  protocol : Column
  receiveQueue : Column
  sendQueue : Column
  host : List UInt8
  port : Port
  rest : List UInt8

namespace NetstatLine

def columns (l : NetstatLine) : List Column := [l.protocol, l.receiveQueue, l.sendQueue]

def localAddress (l : NetstatLine) : List UInt8 := l.host ++ 46 :: l.port.text

def text (l : NetstatLine) : List UInt8 :=
  l.columns.flatMap Column.padded ++ (l.localAddress ++ 32 :: l.rest)

structure Valid (l : NetstatLine) : Prop where
  columns : ∀ c ∈ l.columns, c.Valid
  host : 32 ∉ l.host ∧ 10 ∉ l.host
  port : l.port.Valid
  rest : 10 ∉ l.rest
  noNul : 0 ∉ l.text
  short : l.text.length < lineSize

theorem Valid.localAddress {l : NetstatLine} (hl : l.Valid) :
    32 ∉ l.localAddress ∧ 10 ∉ l.localAddress := by
  have hblank := l.port.not_mem_text hl.port (b := 32) (by decide) (by decide)
  have hnewline := l.port.not_mem_text hl.port (b := 10) (by decide) (by decide)
  simp [NetstatLine.localAddress, hl.host.1, hl.host.2, hblank, hnewline]

theorem Valid.newline_not_mem {l : NetstatLine} (hl : l.Valid) : 10 ∉ l.text := by
  have hcolumns := newline_not_mem_columns hl.columns
  simp [NetstatLine.text, hcolumns, hl.localAddress.2, hl.rest]

end NetstatLine

def output (lines : List NetstatLine) : List UInt8 := lines.flatMap fun l => l.text ++ [10]

def expectedPorts (lines : List NetstatLine) : List ℤ := expected (lines.map NetstatLine.port)

/-- Both checks print the local ports. -/
structure Exact (lines : List NetstatLine) : Prop where
  tcp : qnxCheckTcpPorts (some (output lines)) =
    some ((expectedPorts lines).map (Detected.mk "TCP"))
  udp : qnxCheckUdpPorts (some (output lines)) =
    some ((expectedPorts lines).map (Detected.mk "UDP"))

def effect (s : Scan) (l : NetstatLine) : Option Scan :=
  if l.port.Representable then some (s.reportAll [l.port]) else none

/-- The fourth token is the local address, whatever follows it. -/
theorem checkLine_line {l : NetstatLine} (hl : l.Valid) (tail : List UInt8) (s : Scan) :
    checkLine s (l.text ++ tail) = effect s l := by
  have hne : l.localAddress ≠ [] := by simp [NetstatLine.localAddress]
  have hsplit : l.text ++ tail =
      l.columns.flatMap Column.padded ++ (l.localAddress ++ 32 :: (l.rest ++ tail)) := by
    simp [NetstatLine.text]
  have htokens : tokens (l.text ++ tail) = l.protocol.text :: l.receiveQueue.text ::
      l.sendQueue.text :: l.localAddress :: tokens (l.rest ++ tail) := by
    rw [hsplit, tokens_columns hl.columns, tokens_word hl.localAddress.1 hne]
    rfl
  rw [checkLine, htokens]
  exact checkToken_port _ hl.port (by decide) (by decide) s

theorem scanLines_output {lines : List NetstatLine} (h : ∀ l ∈ lines, l.Valid) :
    scanLines checkLine (output lines) = lines.foldlM effect {} := by
  apply foldlM_pieces
  · exact fun l hl => (h l hl).newline_not_mem
  · exact fun l hl => (h l hl).short
  · intro l hl s
    have hplain := checkLine_line (h l hl) [] s
    rwa [List.append_nil] at hplain
  · exact fun l hl s => checkLine_line (h l hl) [10] s
  · intro s
    rfl

theorem foldlM_effect {lines : List NetstatLine} (h : ∀ l ∈ lines, l.port.Representable)
    (s : Scan) : lines.foldlM effect s = some (s.reportAll (lines.map NetstatLine.port)) := by
  induction lines generalizing s with
  | nil => rfl
  | cons l lines ih =>
      have hl : effect s l = some (s.reportAll [l.port]) := if_pos (h l List.mem_cons_self)
      rw [List.foldlM_cons, hl]
      simp only [Option.bind_eq_bind, Option.bind_some]
      rw [ih (fun k hk => h k (List.mem_cons_of_mem l hk)), List.map_cons, reportAll_cons]

/-- With ports of an `int` exactly the local ports are printed. -/
theorem exact_of_representable (lines : List NetstatLine) (h : ∀ l ∈ lines, l.Valid)
    (hport : ∀ l ∈ lines, l.port.Representable) : Exact lines := by
  have hscan := scanLines_output h
  rw [foldlM_effect hport] at hscan
  constructor
  · rw [qnxCheckTcpPorts, checkPorts, hscan, Option.map_some]
    exact congrArg (fun ports => some (ports.map (Detected.mk "TCP"))) (reportAll_printed 0 _)
  · rw [qnxCheckUdpPorts, checkPorts, hscan, Option.map_some]
    exact congrArg (fun ports => some (ports.map (Detected.mk "UDP"))) (reportAll_printed 0 _)

def tcpColumns : List Column := [.ofString "tcp" 5, .ofString "0" 6, .ofString "0" 2]

theorem valid_tcpColumns : ∀ c ∈ tcpColumns, c.Valid := by decide

/-- "tcp 0 0" and an address, with the peer "*.*" and a state. -/
def listening (host : String) (port : String) : NetstatLine where
  protocol := .ofString "tcp" 5
  receiveQueue := .ofString "0" 6
  sendQueue := .ofString "0" 2
  host := bytes host
  port := .number (bytes port)
  rest := bytes "   *.*     LISTEN"

theorem newline_not_mem_peer : 10 ∉ bytes "   *.*     LISTEN" := by decide

theorem valid_listening {host port : String} (hhost : 32 ∉ bytes host ∧ 10 ∉ bytes host)
    (hport : (Port.number (bytes port)).Valid) (hnul : 0 ∉ (listening host port).text)
    (hshort : (listening host port).text.length < lineSize) : (listening host port).Valid where
  columns := valid_tcpColumns
  host := hhost
  port := hport
  rest := newline_not_mem_peer
  noNul := hnul
  short := hshort

/-- The dots and colons of the addresses do not matter. -/
def threeSockets : List NetstatLine :=
  [listening "127.0.0.1" "22", listening "fe80::1" "8080", listening "*" "22"]

theorem exact_threeSockets : expectedPorts threeSockets = [22, 8080] ∧ Exact threeSockets := by
  refine ⟨by decide, exact_of_representable threeSockets ?_ (by decide)⟩
  intro l hl
  simp only [threeSockets, List.mem_cons, List.not_mem_nil, or_false] at hl
  rcases hl with rfl | rfl | rfl <;>
    exact valid_listening (by decide) (by decide +kernel) (by decide) (by decide)

def overflowingPort : Port := .number (bytes "4294967318")

def overflowing : List NetstatLine := [listening "127.0.0.1" "4294967318"]

/-- A port which is no `int` leaves the value of `atoi` undefined. Where the conversion keeps
the low 32 bits it is 22, which is printed and is no local port of the listing. -/
theorem overflowing_undefined : qnxCheckTcpPorts (some (output overflowing)) = none ∧
    overflowing.map NetstatLine.port = [overflowingPort] ∧
    overflowingPort.number?.map (fun n => n.bmod (2 ^ 32)) = some 22 ∧
    (({} : Scan).report 22).printed = [22] ∧ expectedPorts overflowing = [] ∧
    ¬ ∀ lines : List NetstatLine, (∀ l ∈ lines, l.Valid) → Exact lines := by
  have hundefined : qnxCheckTcpPorts (some (output overflowing)) = none := by decide +kernel
  refine ⟨hundefined, rfl, by decide, by decide, by decide, fun h => ?_⟩
  have hvalid : ∀ l ∈ overflowing, l.Valid := by
    intro l hl
    rw [List.mem_singleton.mp hl]
    exact valid_listening (by decide) (by decide +kernel) (by decide) (by decide)
  have htcp := (h overflowing hvalid).tcp
  rw [hundefined] at htcp
  cases htcp

end MicrokernelBenchmark.QnxPorts
