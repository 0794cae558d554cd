import EltexSystems.EchoMemory
import EltexSystems.Proofs.EchoServer

/-!
# The echo server stays inside its arrays

With every access checked, each function returns what it returns unchecked wherever its arguments
lie in the arrays its caller passes, so an iteration over any datagram faults nowhere
(`echo_accesses_inside`).
-/

namespace EltexSystems

open CheckedMem CStr Mem

namespace Checked

section Checksums

theorem sumLoop_eq (m : List UInt8) : ∀ (i : ℕ) (sum : UInt32) (len : ℕ), i + len ≤ m.length →
    sumLoop m i sum len = some (EltexSystems.sumLoop sum ((m.drop i).take len))
  | i, sum, 0, _ => by
    rw [sumLoop, List.take_zero]
    rfl
  | i, sum, 1, h => by
    rw [sumLoop, load8_eq (by omega), List.drop_eq_getElem_cons (by omega), Mem.load8,
      List.getD_eq_getElem _ _ (by omega)]
    rfl
  | i, sum, len + 2, h => by
    rw [sumLoop, load8_eq (by omega), load8_eq (by omega), List.drop_eq_getElem_cons (by omega),
      List.drop_eq_getElem_cons (by omega), Mem.load8, Mem.load8,
      List.getD_eq_getElem _ _ (by omega), List.getD_eq_getElem _ _ (by omega)]
    exact sumLoop_eq m (i + 2) _ len (by omega)

theorem rawudpChecksum16_eq {m : List UInt8} {i len : ℕ} (h : i + len ≤ m.length) :
    rawudpChecksum16 m i len
      = some (EltexSystems.rawudpChecksum16 ((m.drop i).take len)) := by
  rw [rawudpChecksum16, sumLoop_eq m i 0 len h]
  rfl

theorem rawudpUdpChecksum_eq (src dst : UInt32) {m : List UInt8} {i len : ℕ}
    (h : i + len ≤ m.length) : rawudpUdpChecksum src dst m i len
      = some (EltexSystems.rawudpUdpChecksum src dst ((m.drop i).take len)) := by
  have hlen : ((m.drop i).take len).length = len := by
    rw [List.length_take, List.length_drop]
    omega
  have hpseudo : rawudpChecksum16 (pseudo src dst len) 0 12
      = some (EltexSystems.rawudpChecksum16 (pseudo src dst len)) := rawudpChecksum16_eq le_rfl
  rw [rawudpUdpChecksum, hpseudo, EltexSystems.rawudpUdpChecksum, hlen]
  simp only [Option.bind_eq_bind, Option.bind_some, sumLoop_eq m i _ len h]
  rfl

end Checksums

section Builder

@[simp] theorem length_setVersion (m : List UInt8) (v : UInt8) :
    (EltexSystems.setVersion m v).length = m.length := length_store8 _ _ _

@[simp] theorem length_setIhl (m : List UInt8) (v : UInt8) :
    (EltexSystems.setIhl m v).length = m.length := length_store8 _ _ _

@[simp] theorem length_writeIphdr (m : List UInt8) (pid : UInt32) (total : ℕ)
    (srcIp dstIp : UInt32) (ttl : UInt8) :
    (EltexSystems.writeIphdr m pid total srcIp dstIp ttl).length = m.length := by
  simp [EltexSystems.writeIphdr]

theorem setVersion_eq {m : List UInt8} (h : 0 < m.length) (v : UInt8) :
    setVersion m v = some (EltexSystems.setVersion m v) :=
  bind_of_eq (load8_eq h) (store8_eq _ h)

theorem setIhl_eq {m : List UInt8} (h : 0 < m.length) (v : UInt8) :
    setIhl m v = some (EltexSystems.setIhl m v) :=
  bind_of_eq (load8_eq h) (store8_eq _ h)

theorem writeIphdr_eq {m : List UInt8} (h : 20 ≤ m.length) (pid : UInt32) (total : ℕ)
    (srcIp dstIp : UInt32) (ttl : UInt8) : writeIphdr m pid total srcIp dstIp ttl
      = some (EltexSystems.writeIphdr m pid total srcIp dstIp ttl) := by
  unfold writeIphdr
  refine bind_of_eq (setVersion_eq (by omega) _) ?_
  refine bind_of_eq (setIhl_eq (by simp; omega) _) ?_
  refine bind_of_eq (store8_eq _ (by simp; omega)) ?_
  refine bind_of_eq (store16_eq _ (by simp; omega)) ?_
  refine bind_of_eq (store16_eq _ (by simp; omega)) ?_
  refine bind_of_eq (store16_eq _ (by simp; omega)) ?_
  refine bind_of_eq (store8_eq _ (by simp; omega)) ?_
  refine bind_of_eq (store8_eq _ (by simp; omega)) ?_
  refine bind_of_eq (store32_eq _ (by simp; omega)) ?_
  refine bind_of_eq (store32_eq _ (by simp; omega)) ?_
  refine bind_of_eq (store16_eq _ (by simp; omega)) ?_
  refine bind_of_eq (rawudpChecksum16_eq (by simp [iphdrSize]; omega)) ?_
  exact store16_eq _ (by simp; omega)

/-- The copy of the payload as the unchecked builder makes it. -/
def copied (m payload : List UInt8) (payloadLen : ℕ) : List UInt8 :=
  if payloadLen ≠ 0 then Mem.memcpy m (iphdrSize + udphdrSize) payload payloadLen else m

theorem length_copied {m payload : List UInt8} {payloadLen : ℕ} (h : 28 + payloadLen ≤ m.length)
    (hp : payloadLen ≤ payload.length) : (copied m payload payloadLen).length = m.length := by
  unfold copied
  split_ifs
  · exact length_memcpy h hp
  · rfl

theorem copyPayload_eq {m payload : List UInt8} {payloadLen : ℕ} (h : 28 + payloadLen ≤ m.length)
    (hp : payloadLen ≤ payload.length) :
    copyPayload m payload payloadLen = some (copied m payload payloadLen) := by
  unfold copyPayload copied
  split_ifs
  · exact memcpy_eq h (by omega)
  · rfl

theorem writeUdp_eq {m : List UInt8} {payload : List UInt8} {payloadLen : ℕ}
    (h : 28 + payloadLen ≤ m.length) (hp : payloadLen ≤ payload.length) (srcIp dstIp : UInt32)
    (srcPort dstPort : UInt16) : writeUdp m srcIp dstIp srcPort dstPort payload payloadLen
      = some (EltexSystems.writeUdp m srcIp dstIp srcPort dstPort payload payloadLen) := by
  unfold writeUdp
  refine bind_of_eq (store16_eq _ (by omega)) ?_
  refine bind_of_eq (store16_eq _ (by simp; omega)) ?_
  refine bind_of_eq (store16_eq _ (by simp; omega)) ?_
  refine bind_of_eq (store16_eq _ (by simp; omega)) ?_
  refine bind_of_eq (copyPayload_eq (by simpa using h) hp) ?_
  refine bind_of_eq (rawudpUdpChecksum_eq _ _ ?_) ?_
  · rw [length_copied (by simpa using h) hp]
    simp only [length_store16, iphdrSize, udphdrSize]
    omega
  · refine store16_eq _ ?_
    rw [length_copied (by simpa using h) hp]
    simp only [length_store16]
    omega

/-- The builder stays inside a buffer of the capacity it is told and the payload it is handed. -/
theorem rawudpBuildIpv4Udp_eq {outBuf payload : List UInt8} {outCap payloadLen : ℕ}
    (hout : outBuf.length = outCap) (hp : payloadLen ≤ payload.length) (pid srcIp dstIp : UInt32)
    (srcPort dstPort : UInt16) (ttl : UInt8) :
    rawudpBuildIpv4Udp pid outBuf outCap srcIp dstIp srcPort dstPort payload payloadLen ttl
      = some (EltexSystems.rawudpBuildIpv4Udp pid outBuf outCap srcIp dstIp srcPort dstPort payload
        payloadLen ttl) := by
  unfold rawudpBuildIpv4Udp EltexSystems.rawudpBuildIpv4Udp
  simp only
  split_ifs with hcap hmax
  · rfl
  · rfl
  · simp only [RAWUDP_MAX_PAYLOAD] at hmax
    have htot : (iphdrSize + udphdrSize + payloadLen) % 2 ^ 64 = 28 + payloadLen := by
      simp only [iphdrSize, udphdrSize]
      omega
    rw [htot] at hcap ⊢
    have hset : (Mem.memset outBuf 0 (28 + payloadLen)).length = outBuf.length :=
      length_memset _ (by omega)
    refine bind_of_eq (memset_eq _ (by omega)) ?_
    refine bind_of_eq (writeIphdr_eq (by omega) _ _ _ _ _) ?_
    refine bind_of_eq (writeUdp_eq (by rw [length_writeIphdr]; omega) hp _ _ _ _) ?_
    rfl

end Builder

section Parser

/-- The parser reads only bytes it has checked the packet to have. -/
theorem rawudpParseIpv4Udp_eq (pkt : List UInt8) : rawudpParseIpv4Udp pkt pkt.length
    = some (EltexSystems.rawudpParseIpv4Udp pkt pkt.length) := by
  unfold rawudpParseIpv4Udp EltexSystems.rawudpParseIpv4Udp
  by_cases hlen : pkt.length < iphdrSize
  · rw [if_pos hlen, if_pos hlen]
  have h20 : 20 ≤ pkt.length := Nat.not_lt.mp hlen
  rw [if_neg hlen, if_neg hlen]
  refine bind_of_eq (load8_eq (by omega)) ?_
  by_cases hver : Mem.load8 pkt 0 >>> 4 ≠ 4
  · rw [if_pos hver, if_pos hver]
  rw [if_neg hver, if_neg hver]
  by_cases hihl : (Mem.load8 pkt 0 &&& (0x0F : UInt8)).toNat * 4 < iphdrSize ∨
      pkt.length < (Mem.load8 pkt 0 &&& (0x0F : UInt8)).toNat * 4 + udphdrSize
  · rw [if_pos hihl, if_pos hihl]
  rw [if_neg hihl, if_neg hihl]
  simp only [iphdrSize, udphdrSize, not_or] at hihl
  refine bind_of_eq (load8_eq (by omega)) ?_
  by_cases hproto : Mem.load8 pkt 9 ≠ IPPROTO_UDP
  · rw [if_pos hproto, if_pos hproto]
  rw [if_neg hproto, if_neg hproto]
  refine bind_of_eq (load16_eq (by omega)) ?_
  simp only
  split_ifs with hudp htotal
  · rfl
  · rfl
  refine bind_of_eq (load32_eq (by omega)) ?_
  refine bind_of_eq (load32_eq (by omega)) ?_
  refine bind_of_eq (load16_eq (by omega)) ?_
  exact bind_of_eq (load16_eq (by omega)) rfl

theorem isShutdown_eq {buf : List UInt8} {d : Datagram}
    (h : EltexSystems.rawudpParseIpv4Udp buf buf.length = some d) :
    isShutdown buf d = some (decide (d.slice buf = SHUTDOWN)) := by
  obtain ⟨-, hle⟩ := parse_bounds h
  have hlen := length_slice h
  unfold isShutdown
  split_ifs with h8
  · rw [slice_eq (by omega), Datagram.slice, h8]
    rfl
  · have hne : d.slice buf ≠ SHUTDOWN := fun hs => by
      rw [hs] at hlen
      exact h8 hlen.symm
    rw [decide_eq_false hne]

end Parser

section Reply

theorem terminated_copy {m src : List UInt8} {n : ℕ} (h : n < m.length) (hs : n ≤ src.length) :
    Mem.store8 (Mem.memcpy m 0 src n) n 0 = src.take n ++ 0 :: m.drop (n + 1) := by
  have hlen : (src.take n).length = n := by
    rw [List.length_take]
    omega
  have hdrop : m.drop n = m[n] :: m.drop (n + 1) := List.drop_eq_getElem_cons h
  have happ := store8_append hlen (m.drop n) 0 0
  rw [Nat.add_zero] at happ
  rw [Mem.memcpy, List.take_zero, List.nil_append, Nat.zero_add, happ, hdrop]
  rfl

/-- The text is printed into the array, all of it where it is shorter than the array. -/
theorem formatReply_eq {resp msg : List UInt8} {size : ℕ} (hresp : resp.length = size)
    (hsize : 0 < size) (hnul : (0 : UInt8) ∈ msg) (cnt : UInt32) :
    ∃ resp', formatReply resp size msg cnt
        = some ((cstr msg ++ ascii " " ++ decimal cnt.toNat).length, resp') ∧
      resp'.length = size ∧
      ((cstr msg ++ ascii " " ++ decimal cnt.toNat).length < size →
        resp'.take (cstr msg ++ ascii " " ++ decimal cnt.toNat).length
          = cstr msg ++ ascii " " ++ decimal cnt.toNat) := by
  set text := cstr msg ++ ascii " " ++ decimal cnt.toNat with htext
  have hshown : (snprintf size text ++ [0]).length ≤ size := by
    rw [List.length_append, snprintf, List.length_take, List.length_singleton]
    omega
  refine ⟨Mem.memcpy resp 0 (snprintf size text ++ [0]) (snprintf size text ++ [0]).length,
    ?_, ?_, fun hlt => ?_⟩
  · refine bind_of_eq (string_eq hnul) ?_
    exact bind_of_eq (memcpy_eq (by rw [Nat.zero_add, hresp]; exact hshown)
      (by rw [Nat.zero_add])) rfl
  · rw [length_memcpy (by omega) le_rfl, hresp]
  · have hall : snprintf size text = text := List.take_of_length_le (by omega)
    rw [hall, Mem.memcpy, List.take_zero, List.nil_append, List.take_length, List.append_assoc,
      List.take_left]

theorem build_congr {payload payload' : List UInt8} {n : ℕ} (h : payload.take n = payload'.take n)
    (pid : UInt32) (outBuf : List UInt8) (outCap : ℕ) (srcIp dstIp : UInt32)
    (srcPort dstPort : UInt16) (ttl : UInt8) :
    EltexSystems.rawudpBuildIpv4Udp pid outBuf outCap srcIp dstIp srcPort dstPort payload n ttl
      = EltexSystems.rawudpBuildIpv4Udp pid outBuf outCap srcIp dstIp srcPort dstPort payload' n
        ttl := by
  simp only [EltexSystems.rawudpBuildIpv4Udp, EltexSystems.writeUdp, Mem.memcpy, h]

/-- What the builder returns lies inside a buffer with room for a full payload. -/
theorem build_length {outBuf payload : List UInt8} {outCap n : ℕ} (hout : outBuf.length = outCap)
    (hcap : 1428 ≤ outCap) (hp : n ≤ payload.length) (pid srcIp dstIp : UInt32)
    (srcPort dstPort : UInt16) (ttl : UInt8) :
    (EltexSystems.rawudpBuildIpv4Udp pid outBuf outCap srcIp dstIp srcPort dstPort payload n
        ttl).1.toNat
      ≤ (EltexSystems.rawudpBuildIpv4Udp pid outBuf outCap srcIp dstIp srcPort dstPort payload n
        ttl).2.length := by
  by_cases hmax : 1400 < n
  · rw [build_refused hmax]
    exact Nat.zero_le _
  · rw [build_layout (by omega) hp (by omega), List.length_append, length_packet, List.length_take,
      List.length_drop]
    simp only [Int.toNat_natCast]
    omega

theorem length_echoText_lt (payload : List UInt8) (cnt : UInt32) :
    (echoText payload cnt).length < RAWUDP_MAX_PAYLOAD + 128 := by
  have := length_echoText_le payload cnt
  simp only [RAWUDP_MAX_PAYLOAD]
  omega

theorem echoReply_eq {e : EchoEnv} (hout : e.out.length = 65536) (arrays : TextArrays)
    (listenPort : UInt16) {buf : List UInt8} {d : Datagram}
    (h : EltexSystems.rawudpParseIpv4Udp buf buf.length = some d) (cnt : UInt32) :
    echoReply listenPort e arrays d buf cnt
      = some (EltexSystems.echoReply listenPort e d (d.slice buf) cnt) := by
  obtain ⟨-, hle⟩ := parse_bounds h
  have hresp := arrays.resp_size
  obtain ⟨copy, hcopy⟩ : ∃ n, n = min d.payloadLen RAWUDP_MAX_PAYLOAD := ⟨_, rfl⟩
  have hsrc : d.payload + copy ≤ buf.length := by omega
  have hroom : copy < arrays.msg.length := by
    rw [arrays.msg_size]
    omega
  -- `msg` holds the first bytes of the payload and a `NUL`
  have hdrop : copy ≤ (buf.drop d.payload).length := by
    rw [List.length_drop]
    omega
  have hwritten := terminated_copy hroom hdrop
  have htake : (buf.drop d.payload).take copy = (d.slice buf).take RAWUDP_MAX_PAYLOAD := by
    rw [Datagram.slice, List.take_take, hcopy, Nat.min_comm]
  have hnul : (0 : UInt8) ∈
      Mem.store8 (Mem.memcpy arrays.msg 0 (buf.drop d.payload) copy) copy 0 := by
    rw [hwritten]
    simp
  have hstring : cstr (Mem.store8 (Mem.memcpy arrays.msg 0 (buf.drop d.payload) copy) copy 0)
      = cstr ((d.slice buf).take RAWUDP_MAX_PAYLOAD) := by
    rw [hwritten, cstr_append_nul, htake]
  obtain ⟨resp, hformat, hlen, hshown⟩ := formatReply_eq hresp (by omega) hnul cnt
  rw [hstring] at hformat hshown
  -- the text is shorter than `resp`
  have hshort := length_echoText_lt (d.slice buf) cnt
  have htext : resp.take (echoText (d.slice buf) cnt).length = echoText (d.slice buf) cnt :=
    hshown hshort
  have hall : snprintf (RAWUDP_MAX_PAYLOAD + 128) (echoText (d.slice buf) cnt)
      = echoText (d.slice buf) cnt := List.take_of_length_le (by omega)
  have hcongr := build_congr (htext.trans (List.take_length (l := echoText (d.slice buf) cnt)).symm)
    e.pid e.out 65536 d.dstIp d.srcIp listenPort d.srcPort 64
  have hle' : (echoText (d.slice buf) cnt).length ≤ resp.length := by omega
  have hbound := build_length hout (by omega) hle' e.pid d.dstIp d.srcIp listenPort d.srcPort 64
  unfold echoReply EltexSystems.echoReply
  simp only [← hcopy, hall, ← hcongr]
  refine bind_of_eq (memcpy_eq (by omega) hsrc) ?_
  refine bind_of_eq (store8_eq _ (by rw [length_memcpy (by omega) hdrop]; exact hroom)) ?_
  refine bind_of_eq hformat ?_
  refine bind_of_eq (rawudpBuildIpv4Udp_eq hout hle' _ _ _ _ _ _) ?_
  split_ifs with hneg
  · rfl
  · exact bind_of_eq (slice_eq (by rwa [Nat.zero_add])) rfl

end Reply

section Iteration

theorem bucket_eq {ct : Option ClientTable} (h : ∀ t, ct = some t → t.Sized) (key : ClientKey) :
    bucket ct key = some () := by
  rcases ct with _ | t
  · rfl
  · obtain ⟨hnb, hlen⟩ := h t rfl
    unfold bucket
    simp only [hnb, hlen]
    exact if_pos (bucketOf_lt key)

/-- An iteration over any datagram stays inside every array. -/
theorem echoServerIter_eq {e : EchoEnv} (hout : e.out.length = 65536) (arrays : TextArrays)
    {ct : Option ClientTable} (hct : ∀ t, ct = some t → t.Sized) (listenPort : UInt16)
    (buf : List UInt8) : echoServerIter listenPort e arrays ct buf
      = some (EltexSystems.echoServerIter listenPort e ct buf) := by
  unfold echoServerIter EltexSystems.echoServerIter
  refine bind_of_eq (rawudpParseIpv4Udp_eq buf) ?_
  rcases hp : EltexSystems.rawudpParseIpv4Udp buf buf.length with _ | d
  · rfl
  simp only
  by_cases hport : d.dstPort ≠ listenPort
  · rw [if_pos hport, if_pos hport]
    rfl
  rw [if_neg hport, if_neg hport]
  refine bind_of_eq (isShutdown_eq hp) ?_
  refine bind_of_eq (bucket_eq hct _) ?_
  by_cases hs : d.slice buf = SHUTDOWN
  · have h8 : d.payloadLen = 8 := by
      rw [← length_slice hp, hs]
      rfl
    rw [if_pos (decide_eq_true hs), if_pos ⟨h8, hs⟩]
    rfl
  rw [if_neg (by simpa using hs), if_neg fun h => hs h.2]
  rcases rawudpCtNext ct ⟨d.srcIp, d.srcPort⟩ (some e.cnt) e.calloc with ⟨rc, ct', _ | cnt⟩
  · rcases rc with (_ | n) | n <;> rfl
  rcases rc with (_ | n) | n
  · exact bind_of_eq (echoReply_eq hout arrays listenPort hp _) rfl
  · rfl
  · rfl

end Iteration

end Checked

/-- The table of a running server has its 1024 buckets. -/
theorem run_sized {listenPort : UInt16} {tr : List (Option ClientTable × Arrival)}
    {u : Option ClientTable} (h : (serverLts listenPort).Run tr u) :
    ∀ t, u = some t → t.Sized := by
  obtain ⟨t, c, rfl, hc⟩ := run_counts h
  rintro _ ⟨⟩
  exact ⟨hc.wf.nb, hc.wf.length⟩

/-- Whatever datagram a running server receives, and whatever its counters hold, every access of the
iteration lies in its array and the iteration does what it does unchecked; the formatted reply is
shorter than `resp`. -/
theorem echo_accesses_inside (listenPort : UInt16) {e : EchoEnv} (hout : e.out.length = 65536)
    (arrays : TextArrays) (buf : List UInt8) :
    (∀ ct, (∀ t, ct = some t → t.Sized) →
      Checked.echoServerIter listenPort e arrays ct buf
        = some (echoServerIter listenPort e ct buf)) ∧
    (∀ tr u, (serverLts listenPort).Run tr u → ∀ t, u = some t → t.Sized) ∧
    ∀ d cnt, requestOf listenPort buf = some d →
      (echoText (d.slice buf) cnt).length < arrays.resp.length := by
  refine ⟨fun ct hct => Checked.echoServerIter_eq hout arrays hct listenPort buf,
    fun tr u h => run_sized h, fun d cnt _ => ?_⟩
  rw [arrays.resp_size]
  exact Checked.length_echoText_lt _ _

theorem echo_accesses_inside_short : ∃ arrays : TextArrays,
    Checked.echoServerIter 7 ⟨1, true, List.replicate 65536 0, 0⟩ arrays (rawudpCtCreate true true)
        shortArrival.buf
      = some (echoServerIter 7 ⟨1, true, List.replicate 65536 0, 0⟩ (rawudpCtCreate true true)
        shortArrival.buf) := by
  refine ⟨⟨List.replicate 1464 0, List.replicate 1528 0, List.length_replicate,
    List.length_replicate⟩, ?_⟩
  refine (echo_accesses_inside 7 List.length_replicate _ _).1 _ ?_
  rintro t ⟨⟩
  exact ⟨rfl, List.length_replicate⟩

end EltexSystems
