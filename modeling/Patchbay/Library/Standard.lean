import Patchbay.Catalog.Builtin
import Patchbay.Library.Basic

/-! The units that every patch can use. -/
namespace Patchbay.Library
open Builtin

private def unitClass (name group : String) (sockets outputs : List (List String))
    (positional : List String) : UnitClass :=
  ⟨name, sockets.map Jack.mk, outputs.map Jack.mk, positional, some group⟩

def io : UnitSet where
  classes := [
    (unitClass userInput "UserInterface" [] [["output"]] [], .control),
    (unitClass stereoOutput "UserInterface" [["left"], ["right"]] [] [], .sink),
    (unitClass knob "UserInterface" [] [["output"]] [], .knob)]
  aliases := []

def utility : UnitSet where
  classes := [
    (unitClass inverter "Utility" [["input"]] [["output"]] ["input"], .inverter),
    (unitClass attenuator "Utility" [["amount", "amt", "a", "gain", "g"], ["input"]] [["output"]]
      ["amount", "input"], .attenuator),
    (unitClass mapping "Utility" [["source"], ["from"], ["to"]] [["output"]]
      ["source", "from", "to"], .mapping .unipolar),
    (unitClass bipolarMapping "Utility" [["source"], ["from"], ["to"]] [["output"]]
      ["source", "from", "to"], .mapping .bipolar),
    (unitClass "Mix" "Utility" [["input"]] [["output"]] ["input"], .passThrough),
    (unitClass "StereoMix" "Utility" [["left"], ["right"]] [["left"], ["right"]] ["left", "right"],
      .passThrough)]
  aliases := []

private def oscillatorClass (name : String) : UnitClass :=
  unitClass name "Oscillator" [["frequency", "freq", "f", "pitch"]] [["output"]] ["frequency"]

def oscillator : UnitSet where
  classes := [
    (oscillatorClass "Sine", .oscillator .sine),
    (oscillatorClass "Saw", .oscillator .saw),
    (oscillatorClass "Square", .oscillator .square),
    (oscillatorClass "Triangle", .oscillator .triangle)]
  aliases := [("Sin", "Sine"), ("Sqr", "Square"), ("Tri", "Triangle")]

def noise : UnitSet where
  classes := [(unitClass "WhiteNoise" "Noise" [] [["output"]] [], .noise)]
  aliases := [("Noise", "WhiteNoise")]

private def filterClass (name : String) : UnitClass :=
  unitClass name "Filter" [["input"], ["cutoff", "frequency", "freq", "f"],
    ["resonance", "res", "q"]] [["output"]] ["cutoff", "resonance"]

def filter : UnitSet where
  classes := [(filterClass "LowPass12db", .lowPass12), (filterClass "LowPass24db", .lowPass24)]
  aliases := [("LP", "LowPass12db")]

private def envelopeClass (name : String) : UnitClass :=
  unitClass name "Envelope" [["gate"], ["trigger", "trig", "retrigger", "retrig"],
    ["attack", "att", "a", "A"], ["decay", "dec", "d", "D"], ["sustain", "sus", "s", "S"],
    ["release", "rel", "r", "R"]] [["output"]] ["attack", "decay", "sustain", "release"]

def envelope : UnitSet where
  classes := [
    (envelopeClass "ADSRlin", .envelope .linear),
    (envelopeClass "ADSRlog", .envelope .exponential)]
  aliases := [("ADSR", "ADSRlog")]

private def delayClass (name : String) (outputs : List (List String)) : UnitClass :=
  unitClass name "Effect" [["input"], ["time", "t"], ["feedback", "fb"]] outputs
    ["time", "feedback"]

def effect : UnitSet where
  classes := [
    (delayClass "Delay" [["output"]], .delay),
    (delayClass "PingPongDelay" [["left"], ["right"]], .pingPong),
    (unitClass "Drive" "Effect" [["gain", "g"], ["input"]] [["output"]] ["gain"], .drive)]
  aliases := []

def standard : Library := ofSets [io, utility, oscillator, noise, filter, envelope, effect]

end Patchbay.Library
