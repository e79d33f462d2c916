import Jlos.Net.Wire

/-!
# The DNS resolver

A shallow embedding of the queries of `net/dns.c`.
-/
namespace Jlos.Net.Dns

open List BitVec

/-! ### Queries -/

def dot : Byte := 0x2E

/-- `dns_encode_name`; the length of a label is kept in a byte, and so many bytes of it are
copied. -/
def encodeName (name : List Byte) : List Byte :=
  if _more : name ≠ [] then
    let label := name.takeWhile (· ≠ dot)
    let len : Byte := BitVec.ofNat 8 label.length
    (len :: label.take len.toNat) ++ encodeName (name.drop (label.length + 1))
  else [0]
termination_by name.length
decreasing_by
  have := length_pos_iff.mpr _more
  rw [length_drop]
  omega

/-- `JLOS_DNS_MAX_PACKET` -/
def maxPacket : Nat := 512

/-- What a call of `jlos_dns_resolve` meets: the server of the configuration, 0 without a network
stack; whether it gets a socket; what the clock reads for the identifier and for the start of the
wait; and in each round of the wait whether a response was there and what the clock reads. -/
structure Env where
  dnsServer : BitVec 32
  socket : Bool
  idNs : BitVec 64
  startNs : BitVec 64
  polls : List (Bool × BitVec 64)

inductive Outcome
  | refused | resolved | waiting
  | timeout (now : BitVec 64)
  deriving DecidableEq, Repr

/-- The wait, from the start that `jlos_dns_resolve` keeps on -/
def awaitResponse (start : BitVec 32) : List (Bool × BitVec 64) → Outcome
  | [] => .waiting
  | (resolved, now) :: polls =>
    if resolved then .resolved
    else if now - start.setWidth 64 > 2000000000 then .timeout now
    else awaitResponse start polls

/-- The header, the name and its type and class -/
def query (id : BitVec 16) (name : List Byte) : List Byte :=
  [id.setWidth 8, (id >>> 8).setWidth 8, 1, 0, 0, 1, 0, 0, 0, 0, 0, 0] ++ encodeName name ++ [0, 1, 0, 1]

/-- `jlos_dns_resolve`: the packet that is sent, and how the call ends. The size of the packet is
kept in 16 bits. -/
def resolve (env : Env) (name : List Byte) : Option (List Byte) × Outcome :=
  if env.dnsServer = 0 ∨ env.socket = false then (none, .refused)
  else
    let packet := query (env.idNs.setWidth 16) name
    (some (packet.take (packet.length % 2 ^ 16)), awaitResponse (env.startNs.setWidth 32) env.polls)

/-- The labels of a host name; a dot at its end is not followed by one. -/
def labels : List Byte → List (List Byte)
  | [] => []
  | b :: rest =>
    if b = dot then [] :: labels rest
    else
      match labels rest with
      | [] => [[b]]
      | label :: others => (b :: label) :: others

/-- Reads a name without pointers: labels of 1 to 63 bytes up to a zero. Gives what stands behind
it, too. -/
def decodeName : List Byte → Option (List (List Byte) × List Byte)
  | [] => none
  | len :: rest =>
    if len = 0 then some ([], rest)
    else if len.toNat ≤ 63 ∧ len.toNat ≤ rest.length then
      (decodeName (rest.drop len.toNat)).map fun (others, behind) => (rest.take len.toNat :: others, behind)
    else none
termination_by bytes => bytes.length
decreasing_by
  rw [length_drop, length_cons]
  omega

def encodeLabel (label : List Byte) : List Byte :=
  BitVec.ofNat 8 label.length :: label.take (BitVec.ofNat 8 label.length).toNat

theorem labels_eq {name : List Byte} (more : name ≠ []) : labels name =
    name.takeWhile (· ≠ dot) :: labels (name.drop ((name.takeWhile (· ≠ dot)).length + 1)) := by
  induction name with
  | nil => exact absurd rfl more
  | cons b rest ih =>
    by_cases here : b = dot
    · simp [labels, here]
    · cases rest with
      | nil => simp [labels, here]
      | cons c rest =>
        rw [labels, if_neg here, ih (cons_ne_nil c rest)]
        simp [here]

theorem encodeName_eq (name : List Byte) : encodeName name = (labels name).flatMap encodeLabel ++ [0] := by
  induction name using encodeName.induct with
  | case1 name more label ih =>
    rw [encodeName, dif_pos more, labels_eq more, List.flatMap_cons, List.append_assoc]
    exact congrArg (encodeLabel label ++ ·) ih
  | case2 name empty =>
    rw [Classical.not_not.mp empty, encodeName]
    rfl

def Sized (label : List Byte) : Prop := 1 ≤ label.length ∧ label.length ≤ 63

theorem decodeName_sized {bytes behind : List Byte} {ls : List (List Byte)}
    (decoded : decodeName bytes = some (ls, behind)) : ∀ label ∈ ls, Sized label := by
  induction bytes using decodeName.induct generalizing ls with
  | case1 => simp [decodeName] at decoded
  | case2 rest => simp_all [decodeName]
  | case3 len rest zero fits ih =>
    rw [decodeName, if_neg zero, if_pos fits] at decoded
    obtain ⟨⟨others, last⟩, tail, eq⟩ := Option.map_eq_some_iff.mp decoded
    cases eq
    refine forall_mem_cons.mpr ⟨?_, ih tail⟩
    have pos : len.toNat ≠ 0 := fun eq => zero (eq_of_toNat_eq eq)
    rw [Sized, length_take, Nat.min_eq_left fits.2]
    omega
  | case4 len rest zero big =>
    rw [decodeName, if_neg zero, if_neg big] at decoded
    cases decoded

theorem decodeName_encoded {ls : List (List Byte)} (sized : ∀ label ∈ ls, Sized label) :
    decodeName (ls.flatMap encodeLabel ++ [0]) = some (ls, []) := by
  induction ls with
  | nil => simp [decodeName]
  | cons label ls ih =>
    obtain ⟨⟨pos, le⟩, others⟩ := forall_mem_cons.mp sized
    have len : (BitVec.ofNat 8 label.length).toNat = label.length := by
      rw [toNat_ofNat]
      omega
    have zero : BitVec.ofNat 8 label.length ≠ 0 := fun eq => by
      rw [eq] at len
      change 0 = _ at len
      omega
    rw [List.flatMap_cons, encodeLabel, len, List.take_length, List.cons_append, List.cons_append, List.append_assoc,
      decodeName, if_neg zero, len, if_pos ⟨le, by simp⟩, drop_left, ih others, take_left]
    rfl

theorem encoded_length {ls : List (List Byte)} (sized : ∀ label ∈ ls, Sized label) :
    (ls.flatMap encodeLabel).length = (ls.map fun label => label.length + 1).sum := by
  induction ls with
  | nil => rfl
  | cons label ls ih =>
    obtain ⟨⟨-, le⟩, others⟩ := forall_mem_cons.mp sized
    simp only [List.flatMap_cons, encodeLabel, length_append, length_cons, length_take,
      toNat_ofNat, ih others, map_cons, sum_cons]
    omega

/-- The name of a query that is sent stays in the buffer and is read back exactly if its labels have
1 to 63 bytes and make at most 499 with their lengths. -/
theorem query_valid_iff (env : Env) (name packet : List Byte) (sent : (resolve env name).1 = some packet) :
    (12 + (encodeName name).length ≤ maxPacket ∧ packet.drop 12 = encodeName name ++ [0, 1, 0, 1] ∧
      decodeName (encodeName name) = some (labels name, [])) ↔
    (∀ label ∈ labels name, Sized label) ∧ ((labels name).map fun label => label.length + 1).sum ≤ 499 := by
  have length : (encodeName name).length = ((labels name).flatMap encodeLabel).length + 1 := by
    rw [encodeName_eq, length_append, length_singleton]
  have behind (short : (encodeName name).length ≤ 500) : packet.drop 12 = encodeName name ++ [0, 1, 0, 1] := by
    unfold resolve at sent
    split at sent
    · cases sent
    · cases sent
      rw [take_of_length_le]
      · rfl
      · simp [query]
        omega
  rw [maxPacket]
  constructor
  · rintro ⟨fits, -, decoded⟩
    rw [encodeName_eq] at decoded
    have sized := decodeName_sized decoded
    rw [length, encoded_length sized] at fits
    exact ⟨sized, by omega⟩
  · rintro ⟨sized, short⟩
    rw [encoded_length sized] at length
    exact ⟨by omega, behind (by omega), encodeName_eq name ▸ decodeName_encoded sized⟩

/-- A server, a socket and a clock at zero, without a round of the wait. -/
def prompt : Env := ⟨0x08080808, true, 0, 0, []⟩

/-- The query for `a.b` -/
theorem short_query_valid : ∃ packet, (resolve prompt [0x61, 0x2E, 0x62]).1 = some packet ∧
    decodeName (encodeName [0x61, 0x2E, 0x62]) = some ([[0x61], [0x62]], []) := by
  refine ⟨_, rfl, ((query_valid_iff prompt [0x61, 0x2E, 0x62] _ rfl).mpr ⟨?_, ?_⟩).2.2⟩
  · simp [labels, dot, Sized]
  · decide

/-- The query for `a..b` says that the name ends behind its first label. -/
theorem empty_label_ends_name : ∃ packet, (resolve prompt [0x61, 0x2E, 0x2E, 0x62]).1 = some packet ∧
    labels [0x61, 0x2E, 0x2E, 0x62] = [[0x61], [], [0x62]] ∧
    decodeName (encodeName [0x61, 0x2E, 0x2E, 0x62]) = some ([[0x61]], [1, 0x62, 0]) := by
  refine ⟨_, rfl, by decide, ?_⟩
  rw [encodeName_eq]
  simp [labels, dot, encodeLabel, decodeName]

/-! ### The time a query may take -/

private theorem awaitResponse_timeout {start : BitVec 32} {polls : List (Bool × BitVec 64)} {now : BitVec 64}
    (ends : awaitResponse start polls = .timeout now) :
    now ∈ polls.map Prod.snd ∧ now - start.setWidth 64 > 2000000000 := by
  induction polls with
  | nil => cases ends
  | cons poll polls ih =>
    unfold awaitResponse at ends
    split at ends
    · cases ends
    · split at ends
      next late =>
        cases ends
        exact ⟨mem_cons_self, late⟩
      · obtain ⟨mem, late⟩ := ih ends
        exact ⟨mem_cons_of_mem _ mem, late⟩

/-- Once the clock has passed `2 ^ 32`, the first round without a response looks late. -/
private theorem awaitResponse_wrapped {startNs now : BitVec 64} (late : 2 ^ 32 ≤ startNs.toNat)
    (after : startNs ≤ now) (polls : List (Bool × BitVec 64)) :
    awaitResponse (startNs.setWidth 32) ((false, now) :: polls) = .timeout now := by
  have kept : ((startNs.setWidth 32).setWidth 64).toNat = startNs.toNat % 2 ^ 32 := by
    rw [toNat_setWidth, toNat_setWidth]
    omega
  rw [le_def] at after
  have before : (startNs.setWidth 32).setWidth 64 ≤ now := by
    rw [le_def, kept]
    omega
  have apart : now - (startNs.setWidth 32).setWidth 64 > 2000000000 := by
    rw [gt_iff_lt, lt_def, toNat_sub_of_le before, kept]
    change 2000000000 < _
    omega
  rw [awaitResponse, if_neg (by decide), if_pos apart]

/-- A call gives up only when more than `JLOS_DNS_TIMEOUT_NS` have passed since the query was sent
exactly if it sends none, its wait starts in the first `2 ^ 32` nanoseconds of the clock, or the
first round of the wait finds the response or comes that late itself. -/
theorem timeout_late_iff (env : Env) (name : List Byte) (sentNs : BitVec 64)
    (sent : sentNs ≤ env.startNs)
    (monotonic : (env.startNs :: env.polls.map Prod.snd).Pairwise (· ≤ ·)) :
    (∀ now, (resolve env name).2 = .timeout now → 2000000000 < now.toNat - sentNs.toNat) ↔
      (env.dnsServer = 0 ∨ env.socket = false) ∨ env.startNs.toNat < 2 ^ 32 ∨
        ∀ poll ∈ env.polls.head?, poll.1 = true ∨ 2000000000 < poll.2.toNat - sentNs.toNat := by
  have after (now : BitVec 64) (mem : now ∈ env.polls.map Prod.snd) : env.startNs ≤ now :=
    (pairwise_cons.mp monotonic).1 now mem
  by_cases refused : env.dnsServer = 0 ∨ env.socket = false
  · refine iff_of_true (fun now ends => ?_) (.inl refused)
    rw [resolve, if_pos refused] at ends
    cases ends
  have waits : (resolve env name).2 = awaitResponse (env.startNs.setWidth 32) env.polls := by
    rw [resolve, if_neg refused]
  rw [waits, or_iff_right refused]
  rcases lt_or_ge env.startNs.toNat (2 ^ 32) with early | late
  · -- the 32 bits are the whole reading
    refine iff_of_true (fun now ends => ?_) (.inl early)
    obtain ⟨mem, late⟩ := awaitResponse_timeout ends
    have start : (env.startNs.setWidth 32).setWidth 64 = env.startNs := by
      rw [← toNat_inj, toNat_setWidth, toNat_setWidth]
      omega
    rw [start, gt_iff_lt, lt_def, toNat_sub_of_le (after now mem)] at late
    rw [le_def] at sent
    change 2000000000 < _ at late
    omega
  · rw [or_iff_right (Nat.not_lt.mpr late)]
    cases rounds : env.polls with
    | nil => exact iff_of_true nofun nofun
    | cons poll polls =>
      obtain ⟨found, now⟩ := poll
      simp only [head?_cons, Option.mem_some_iff, forall_eq']
      cases found with
      | true => exact iff_of_true nofun (.inl rfl)
      | false =>
        rw [awaitResponse_wrapped late (after now (by simp [rounds]))]
        simp

/-- Two rounds without a response; and a call after five seconds that is answered at once. -/
theorem timeout_after_three_seconds :
    (resolve { prompt with polls := [(false, 1000000000), (false, 3000000000)] } []).2 =
      .timeout 3000000000 ∧ 2000000000 < (3000000000 : BitVec 64).toNat - (0 : BitVec 64).toNat ∧
    ∀ now, (resolve ⟨0x08080808, true, 0, 5000000000, [(true, 5000000000)]⟩ []).2 = .timeout now →
      2000000000 < now.toNat - (4000000000 : BitVec 64).toNat := by
  refine ⟨rfl, ?_, ?_⟩
  · exact (timeout_late_iff { prompt with polls := [(false, 1000000000), (false, 3000000000)] } [] 0
      (by decide) (by decide)).mpr (.inr (.inl (by decide))) 3000000000 rfl
  · exact (timeout_late_iff ⟨0x08080808, true, 0, 5000000000, [(true, 5000000000)]⟩ [] 4000000000
      (by decide) (by decide)).mpr (.inr (.inr (by simp)))

/-- Five seconds after the start of the clock a call gives up at once. -/
theorem timeout_at_once : ∃ env : Env, (env.startNs :: env.polls.map Prod.snd).Pairwise (· ≤ ·) ∧
    env.startNs = 5000000000 ∧ (resolve env []).2 = .timeout 5000000000 :=
  ⟨{ prompt with startNs := 5000000000, polls := [(false, 5000000000)] }, by decide, rfl, rfl⟩

end Jlos.Net.Dns
