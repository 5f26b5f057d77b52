import GraphiteMeter.Server.Quic.Shard

/-!
# Routing in the kernel and in user space

Reference: `rust/server/src/transport/quic/shard.rs` (`route_in_kernel`, `named`). The kernel's program
and `named` read the same datagram, so what the kernel delivers by an ID of the set no endpoint has to
forward, and a new connection goes where the kernel's hash says.
-/

namespace GraphiteMeter.Server.Quic

open Http3 (Bytes)
open Bpf (Filter exec opJmp opRet opJeq opJset opK opA)

/-! ## The instructions used -/

section Instructions

variable {datagram : Bytes} {rest : List Filter} {acc : ℕ}

/-- A load goes on with the datagram's byte, or returns zero past its end. -/
theorem exec_load (offset : ℕ) :
    exec datagram (load offset :: rest) 0 acc =
      match datagram[offset]? with
      | none => some 0
      | some byte => exec datagram rest 0 byte.toNat :=
  Bpf.exec_loadByte rfl

/-- A bit test jumps as the bit is set. -/
theorem exec_jset (jt jf k : ℕ) :
    exec datagram (op (opJmp ||| opJset ||| opK) jt jf k :: rest) 0 acc =
      exec datagram rest (if acc &&& k = 0 then jf else jt) acc := by
  have hdecode : (op (opJmp ||| opJset ||| opK) jt jf k).decode = some (.jump .set k jt jf) := rfl
  rw [Bpf.exec_jump hdecode]
  by_cases hset : acc &&& k = 0
  · rw [Bpf.Cond.holds, if_pos hset, if_neg (by simpa using hset)]
  · rw [Bpf.Cond.holds, if_neg hset, if_pos (by simpa using hset)]

/-- A comparison jumps as the accumulator is equal. -/
theorem exec_jeq (jt jf k : ℕ) :
    exec datagram (op (opJmp ||| opJeq ||| opK) jt jf k :: rest) 0 acc =
      exec datagram rest (if acc = k then jt else jf) acc := by
  have hdecode : (op (opJmp ||| opJeq ||| opK) jt jf k).decode = some (.jump .eq k jt jf) := rfl
  rw [Bpf.exec_jump hdecode]
  simp only [Bpf.Cond.holds, decide_eq_true_eq]

/-- The program returns its accumulator. -/
theorem exec_retA : exec datagram (op (opRet ||| opA) 0 0 0 :: rest) 0 acc = some acc :=
  Bpf.exec_retAcc rfl

/-- The program returns a constant. -/
theorem exec_retK (k : ℕ) : exec datagram (op (opRet ||| opK) 0 0 k :: rest) 0 acc = some k :=
  Bpf.exec_retConst rfl

end Instructions

/-! ## What the program returns -/

/-- A short header's byte 1. -/
theorem run_short {first second : UInt8} {rest : Bytes} (hshort : first &&& longHeader = 0) :
    Bpf.run routeInKernel (first :: second :: rest) = some second.toNat := by
  have hset : first.toNat &&& longHeader.toNat = 0 := by
    rw [← UInt8.toNat_and, hshort]
    rfl
  rw [Bpf.run, routeInKernel, exec_load]
  simp only [List.getElem?_cons_zero]
  rw [exec_jset, if_pos hset, exec_load]
  simp only [List.getElem?_cons_succ, List.getElem?_cons_zero]
  rw [exec_retA]

/-- A long header's byte 6, after the length of an ID of the set in byte 5; else the kernel's hash
decides. -/
theorem run_long {b0 b1 b2 b3 b4 len : UInt8} {rest : Bytes} (hlong : b0 &&& longHeader ≠ 0) :
    Bpf.run routeInKernel (b0 :: b1 :: b2 :: b3 :: b4 :: len :: rest) =
      if len.toNat = cidBytes then
        match rest with
        | [] => some 0
        | index :: _ => some index.toNat
      else some (2 ^ 32 - 1) := by
  have hset : b0.toNat &&& longHeader.toNat ≠ 0 := by
    intro hzero
    rw [← UInt8.toNat_and] at hzero
    exact hlong (UInt8.toNat_inj.mp hzero)
  rw [Bpf.run, routeInKernel, exec_load]
  simp only [List.getElem?_cons_zero]
  rw [exec_jset, if_neg hset, Bpf.exec_skip, Bpf.exec_skip, exec_load]
  simp only [List.getElem?_cons_succ, List.getElem?_cons_zero]
  rw [exec_jeq]
  split_ifs with hlen
  · rw [exec_load]
    cases rest with
    | nil => rfl
    | cons index rest =>
      simp only [List.getElem?_cons_succ, List.getElem?_cons_zero]
      rw [exec_retA]
  · rw [Bpf.exec_skip, Bpf.exec_skip, exec_retK]

/-! ## Agreement -/

/-- **The kernel and user space agree** on every datagram: where it names an endpoint, the kernel's
program returns that endpoint, and where it names a client, it leaves the choice to the hash. -/
theorem kernel_agrees (datagram : Bytes) :
    match named datagram with
    | .endpoint index => Bpf.run routeInKernel datagram = some index
    | .client _ => Bpf.run routeInKernel datagram = some (2 ^ 32 - 1)
    | .nothing => True := by
  match datagram with
  | [] | [_] => trivial
  | first :: second :: rest =>
    simp only [named]
    by_cases hshort : first &&& longHeader = 0
    · rw [if_pos hshort]
      exact run_short hshort
    rw [if_neg hshort]
    match rest with
    | [] | [_] | [_, _] | [_, _, _] => trivial
    | b2 :: b3 :: b4 :: len :: rest =>
      simp only
      rw [namedLong, run_long hshort]
      by_cases hfits : len.toNat ≤ rest.length
      · rw [if_pos hfits]
        simp only [List.length_take_of_le hfits]
        by_cases hours : len.toNat = cidBytes
        · -- The ID is nine bytes, so its first byte is there to read.
          rw [if_pos hours, if_pos hours]
          cases rest with
          | nil =>
            rw [hours] at hfits
            exact absurd hfits (by decide)
          | cons index rest => rw [hours]; rfl
        · rw [if_neg hours, if_neg hours]
          by_cases hclient : clientCidBytes len.toNat
          · rw [if_pos hclient]
          · rw [if_neg hclient]
            trivial
      · rw [if_neg hfits]
        trivial

end GraphiteMeter.Server.Quic
