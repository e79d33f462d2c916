import Jlos.Lib.Run

/-!
# The ARP cache

A shallow embedding of `jlos_arp_on_ether_frame_received` and `jlos_arp_get_mac_from_cache` of
`net/arp.c`.
-/
namespace Jlos.Net

open Lib Function List

/-- `jlos_arp_message_t`; a MAC address is the number that its bytes make, the first one lowest. -/
structure ArpMessage where
  hardwareType : BitVec 16
  protocol : BitVec 16
  hardwareAddressSize : BitVec 8
  protocolAddressSize : BitVec 8
  command : BitVec 16
  srcMac : BitVec 48
  srcIp : BitVec 32
  dstMac : BitVec 48
  dstIp : BitVec 32
  deriving DecidableEq, Repr

/-- `jlos_arp_t` without its base -/
structure Arp where
  ipCache : Nat → BitVec 32
  macCache : Nat → BitVec 64
  numCacheEntries : Nat

/-- The address of the device, as `jlos_ether_frame_provider_get_ip_address` and
`jlos_ether_frame_provider_get_mac_address` give it. -/
structure Device where
  ip : BitVec 32
  mac : BitVec 64
  deriving DecidableEq, Repr

def arpInit : Arp := ⟨fun _ => 0, fun _ => 0, 0⟩

def ArpMessage.Ours (msg : ArpMessage) (dev : Device) : Prop :=
  msg.hardwareType = 0x0100 ∧ msg.protocol = 0x0008 ∧ msg.hardwareAddressSize = 6 ∧ msg.protocolAddressSize = 4 ∧
    msg.dstIp = dev.ip
  deriving Decidable

/-- What `jlos_arp_on_ether_frame_received` does with a reply. -/
def Arp.learn (self : Arp) (msg : ArpMessage) : Arp :=
  if self.numCacheEntries < 128 then
    { ipCache := update self.ipCache self.numCacheEntries msg.srcIp
      macCache := update self.macCache self.numCacheEntries (msg.srcMac.setWidth 64)
      numCacheEntries := self.numCacheEntries + 1 }
  else self

/-- `jlos_arp_on_ether_frame_received` of a packet that is long enough: whether it is sent back, the
cache, and the message as it is left in the packet. -/
def arpOnEtherFrameReceived (self : Arp) (dev : Device) (msg : ArpMessage) : Bool × Arp × ArpMessage :=
  if msg.Ours dev then
    if msg.command = 0x0100 then
      (true, self, { msg with
        command := 0x0200, dstIp := msg.srcIp, dstMac := msg.srcMac, srcIp := dev.ip, srcMac := dev.mac.setWidth 48 })
    else if msg.command = 0x0200 then (false, self.learn msg, msg)
    else (false, self, msg)
  else (false, self, msg)

def arpGetMacFromCache (self : Arp) (ip : BitVec 32) : BitVec 64 :=
  match (List.range self.numCacheEntries).find? fun i => self.ipCache i = ip with
  | some i => self.macCache i
  | none => 0xFFFFFFFFFFFF

/-! ### The latest binding -/

/-- The cache, and the bindings that the replies have given last. -/
structure Bound where
  arp : Arp
  latest : BitVec 32 → Option (BitVec 64)

/-- A packet, with the addresses of the device at that time; a packet may be too small. -/
structure Packet where
  dev : Device
  msg : Option ArpMessage

def ArpMessage.IsReply (msg : ArpMessage) (dev : Device) : Prop := msg.Ours dev ∧ msg.command = 0x0200
  deriving Decidable

def Bound.receive (s : Bound) (p : Packet) : Bound :=
  match p.msg with
  | none => s
  | some msg =>
    { arp := (arpOnEtherFrameReceived s.arp p.dev msg).2.1
      latest := if msg.IsReply p.dev then update s.latest msg.srcIp (some (msg.srcMac.setWidth 64))
        else s.latest }

def Bound.start : Bound := ⟨arpInit, fun _ => none⟩

def Bound.step (s : Bound) (p : Packet) (s' : Bound) : Prop := s' = s.receive p

/-- Every lookup gives the binding of the latest reply. -/
def Bound.UpToDate (s : Bound) : Prop := ∀ ip mac, s.latest ip = some mac → arpGetMacFromCache s.arp ip = mac

def Arp.Knows (self : Arp) (ip : BitVec 32) : Prop := ∃ i < self.numCacheEntries, self.ipCache i = ip

/-- A reply agrees with what a lookup gives, or is the first one for its address and finds room. -/
def Bound.Meets (s : Bound) (p : Packet) : Prop :=
  ∀ msg ∈ p.msg, msg.IsReply p.dev →
    arpGetMacFromCache s.arp msg.srcIp = msg.srcMac.setWidth 64 ∨
      (s.arp.numCacheEntries < 128 ∧ ¬s.arp.Knows msg.srcIp)

instance (self : Arp) (ip : BitVec 32) : Decidable (self.Knows ip) :=
  inferInstanceAs (Decidable (∃ i < self.numCacheEntries, _))

variable {self : Arp} {dev : Device} {msg : ArpMessage} {ip : BitVec 32}

theorem find_eq_none_iff :
    ((List.range self.numCacheEntries).find? fun i => self.ipCache i = ip) = none ↔ ¬self.Knows ip := by
  simp [Arp.Knows]

theorem arpOnEtherFrameReceived_arp :
    (arpOnEtherFrameReceived self dev msg).2.1 = if msg.IsReply dev then self.learn msg else self := by
  unfold arpOnEtherFrameReceived ArpMessage.IsReply
  by_cases ours : msg.Ours dev
  · by_cases request : msg.command = 0x0100
    · simp [ours, request]
    · simp only [ours, request, true_and, if_true, if_false]
      split <;> rfl
  · simp [ours]

/-- A lookup behind a reply that found room: only an address that was not in the cache has a new
answer. -/
theorem lookup_learn (room : self.numCacheEntries < 128) (ip : BitVec 32) : arpGetMacFromCache (self.learn msg) ip =
      if ip = msg.srcIp ∧ ¬self.Knows ip then msg.srcMac.setWidth 64 else arpGetMacFromCache self ip := by
  have old : (List.range self.numCacheEntries).find? (fun i => (self.learn msg).ipCache i = ip) =
      (List.range self.numCacheEntries).find? fun i => self.ipCache i = ip := by
    apply find?_congr
    intro i mem
    have ne : i ≠ self.numCacheEntries := ne_of_lt (mem_range.mp mem)
    simp [Arp.learn, if_pos room, update_of_ne ne]
  have count : (self.learn msg).numCacheEntries = self.numCacheEntries + 1 := by simp [Arp.learn, if_pos room]
  unfold arpGetMacFromCache
  rw [count, range_succ, find?_append, old]
  cases found : (List.range self.numCacheEntries).find? fun i => self.ipCache i = ip with
  | some i =>
    -- an old entry comes before the new one
    have known : self.Knows ip := by
      by_contra unknown
      rw [find_eq_none_iff.mpr unknown] at found
      cases found
    have ne : i ≠ self.numCacheEntries := ne_of_lt (mem_range.mp (mem_of_find?_eq_some found))
    simp [known, Arp.learn, room, ne]
  | none =>
    have unknown : ¬self.Knows ip := find_eq_none_iff.mp found
    by_cases here : msg.srcIp = ip
    · simp [unknown, Arp.learn, room, here]
    · have other : ip ≠ msg.srcIp := fun eq => here eq.symm
      simp [Arp.learn, room, here, other]

/-- What one packet does to the lookups. -/
theorem upToDate_receive {s : Bound} (fresh : s.UpToDate) (p : Packet) : (s.receive p).UpToDate ↔ s.Meets p := by
  obtain ⟨dev, msg⟩ := p
  cases msg with
  | none => simp [Bound.receive, Bound.Meets, fresh]
  | some msg =>
    simp only [Bound.receive, Bound.Meets, Option.mem_def, Option.some.injEq, forall_eq', arpOnEtherFrameReceived_arp]
    by_cases reply : msg.IsReply dev
    case neg => simpa [reply] using fresh
    simp only [reply, if_true, forall_true_left]
    constructor
    case mp =>
      intro upToDate
      -- The lookup of the address of this reply has to give its own hardware address.
      have answer := upToDate msg.srcIp _ (update_self ..)
      by_cases room : s.arp.numCacheEntries < 128
      · rw [lookup_learn room] at answer
        by_cases known : s.arp.Knows msg.srcIp
        · left
          simpa [known] using answer
        · exact Or.inr ⟨room, known⟩
      · left
        simpa [Arp.learn, room] using answer
    case mpr =>
      intro meets ip mac latest
      have same : ip ≠ msg.srcIp → arpGetMacFromCache (s.arp.learn msg) ip = arpGetMacFromCache s.arp ip := by
        intro other
        by_cases room : s.arp.numCacheEntries < 128
        · simp [lookup_learn room, other]
        · simp [Arp.learn, room]
      obtain rfl | here := eq_or_ne ip msg.srcIp
      · obtain rfl : msg.srcMac.setWidth 64 = mac := by simpa using latest
        by_cases room : s.arp.numCacheEntries < 128
        · rw [lookup_learn room]
          split
          case isTrue => rfl
          case isFalse known => exact meets.resolve_right fun first => known ⟨rfl, first.2⟩
        · have full : s.arp.learn msg = s.arp := by simp [Arp.learn, room]
          rw [full]
          exact meets.resolve_right fun first => room first.1
      · rw [same here]
        apply fresh ip mac
        simpa [here] using latest

open Jlos.Net.Bound

/-- The cache gives the latest binding of every address, in every state of a run, exactly if each
reply agrees with what a lookup gives at that time or is the first one for its address and finds
room. -/
theorem lookup_latest {packets : List (Bound × Packet)} {s : Bound} (run : Run Bound.step Bound.start packets s) :
    (s.UpToDate ∧ ∀ e ∈ packets, e.1.UpToDate) ↔ ∀ e ∈ packets, e.1.Meets e.2 := by
  have initial : start.UpToDate := by
    intro ip mac latest
    cases latest
  refine Run.forall_states_iff (I := fun _ => True) trivial (fun _ _ _ _ _ => trivial) initial ?_ run
  rintro s p _ - fresh rfl
  exact upToDate_receive fresh p

/-- A reply from `10.0.2.2` to `10.0.2.15`. -/
def replyFrom (mac : BitVec 48) : Packet where
  dev := ⟨0x0f02000a, 0x563412005452⟩
  msg := some ⟨0x0100, 0x0008, 6, 4, 0x0200, mac, 0x0202000a, 0x563412005452, 0x0f02000a⟩

theorem repeated_reply_found :
    ((start.receive (replyFrom 0x020202025452)).receive (replyFrom 0x020202025452)).UpToDate := by
  have first : step start (replyFrom 0x020202025452) _ := rfl
  have run := (Run.start.snoc first).snoc (Eq.refl (receive _ (replyFrom 0x020202025452)))
  refine ((lookup_latest run).mpr ?_).1
  simp only [List.nil_append, List.cons_append, List.forall_mem_cons]
  refine ⟨fun msg mem _ => .inr ?_, fun msg mem _ => .inl ?_, nofun⟩
  · exact ⟨by decide, by rintro ⟨i, lt, -⟩; exact absurd lt (Nat.not_lt_zero i)⟩
  · cases mem
    decide

/-- The host takes another network card: its second reply does not reach the lookups. -/
theorem second_reply_lost : let s := (start.receive (replyFrom 0x020202025452)).receive (replyFrom 0x030303035452)
    s.latest 0x0202000a = some 0x030303035452 ∧ arpGetMacFromCache s.arp 0x0202000a = 0x020202025452 := by
  decide

end Jlos.Net
