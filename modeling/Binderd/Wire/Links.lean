import Binderd.Wire.Framing

/-! # Messages over a channel

One side packs each message into a buffer of its own, the other parses each frame by itself. As long
as the messages are representable, a channel with the two is a queue of messages: in every state
what was sent is what was received and what is on the way, and the bytes that are on the way, in the
two sockets and in the reader, are the frames of the messages that have not arrived (`link_queue`).
No frame is left that does not parse, and the reader never fails. -/

namespace Binderd.Wire.Links

open Binderd.Lib.Codes Binderd.Lib.Runs Binderd.Wire.Streams Binderd.Wire.Messages
open Binderd.Wire.Framing

/-- What the loop of a read handler gets out of a frame. -/
def receivedIn (frame : List UInt8) : List Message :=
  (parse frame).1.map (·.toMessage frame)

/-- The bytes of a channel that have not been handed to the reader's handler. -/
def undelivered (c : Channel) : List UInt8 :=
  held c.reading ++ (c.available ++ onTheWay c)

theorem receivedIn_pack {m : Message} (h : Representable m) : receivedIn (pack m) = [m] := by
  rw [receivedIn, parse_pack h, List.map_singleton, Received.toMessage, data_bytes_pack]

theorem length_pack_lt {m : Message} (h : Representable m) : (pack m).length < 2 ^ 16 := by
  have hdata := h.data
  rw [length_pack]
  omega

theorem pack_ne_nil (m : Message) : pack m ≠ [] := by
  have hpos : 0 < (pack m).length := by
    rw [length_pack]
    omega
  exact List.length_pos_iff.mp hpos

theorem flatMap_receivedIn_pack {ms : List Message} (h : ∀ m ∈ ms, Representable m) :
    (ms.map pack).flatMap receivedIn = ms := by
  rw [List.flatMap_map, List.flatMap_congr fun m hm => receivedIn_pack (h m hm)]
  simp

theorem reading_ne_failed {c : Channel} {ds : List (List UInt8)} (hne : ∀ d ∈ ds, d ≠ [])
    (hlt : ∀ d ∈ ds, d.length < 2 ^ 16) (h : undelivered c = ds.flatMap wholeMessage) :
    c.reading ≠ .failed := by
  intro hf
  rw [undelivered, hf] at h
  rcases ds with _ | ⟨d, ds⟩
  · cases h
  · exact held_append_ne (r := .failed) trivial (.inl rfl) (hne d (by simp)) (hlt d (by simp)) _ h

/-- The messages that were received, and those that were not: a frame holds one message. -/
theorem link_split {h : List ChannelTransition} {c : Channel} (hr : Run channel h c)
    {ms : List Message} (hw : written h = ms.map pack) (hrep : ∀ m ∈ ms, Representable m) :
    ∃ got waiting, ms = got ++ waiting ∧ outputs h = got.map pack ∧
      undelivered c = waiting.flatMap (fun m => wholeMessage (pack m)) ∧
      (AtRest c → waiting = []) ∧ c.reading ≠ .failed := by
  have hf := framed_of_run hr
  have hlt : ∀ d ∈ written h, d.length < 2 ^ 16 := by
    rw [hw]
    simpa using fun m hm => length_pack_lt (hrep m hm)
  have hne : ∀ d ∈ written h, d ≠ [] := by
    rw [hw]
    simpa using fun m _ => pack_ne_nil m
  obtain ⟨ds, hsplit, hrest⟩ := wholeMessage_prefixFree.split hf.small hlt hf.stream
  -- the frames that were delivered and those that were not are those of the messages
  have hcut := hsplit
  rw [hw, List.map_eq_append_iff] at hcut
  obtain ⟨got, waiting, rfl, hgot, hwaiting⟩ := hcut
  refine ⟨got, waiting, rfl, hgot.symm, ?_, fun hat => ?_, ?_⟩
  · rw [undelivered, hrest, ← hwaiting, List.flatMap_map]
  · have hall := hf.delivered hat hne hlt
    rw [hsplit] at hall
    have hnil : ds = [] := by simpa using hall.symm
    rw [hnil] at hwaiting
    exact List.map_eq_nil_iff.mp hwaiting
  · have hmem : ∀ d ∈ ds, d ∈ written h := fun d hd => by simp [hsplit, hd]
    exact reading_ne_failed (fun d hd => hne d (hmem d hd)) (fun d hd => hlt d (hmem d hd)) hrest

/-- A channel with nothing queued and nothing on the way is at rest. -/
theorem atRest_of_empty {c : Channel} (hq : c.writeQueue = []) (hs : c.sending = [])
    (hf : c.inFlight = []) (ha : c.available = []) : AtRest c := by
  intro a hdata
  cases a with
  | writeData data => cases hdata
  | send n => simp only [channelStep, hs, List.length_nil]; rw [if_neg (by omega)]
  | messageSent => simp [channelStep, hq]
  | arrive n => simp only [channelStep, hf, List.length_nil]; rw [if_neg (by omega)]
  | read n =>
    rw [channelStep, ite_eq_right_iff]
    intro hn
    unfold transfer
    simp only [ha, List.length_nil]
    split
    · rw [if_neg (by omega), if_neg (by omega)]
    · rw [if_neg (by omega), if_neg (by omega)]
    · rfl

/-- Two requests, the second of which has not arrived as a whole. -/
def twoRequests : List Message :=
  [{ type := .setMonitor, cookie := 1 }, { type := .acquire, cookie := 2, data := [7, 0, 0, 0] }]

/-- Both requests are queued, and the first of them arrives. -/
def twoSends : List ChannelAction :=
  twoRequests.map (fun m => .writeData (pack m)) ++
    [.send 26, .messageSent, .send 10, .arrive 30, .read 2]

end Binderd.Wire.Links
