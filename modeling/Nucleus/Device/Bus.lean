import Nucleus.Word

/-!
# Bus layout

Where the bus keeps its clock registers, the pending bitmaps of the five peripheral lines and the
register blocks of their devices. Lines 3 to 7 carry eight devices each; every device owns a block
of four words.
-/
namespace Nucleus.Bus

/-- Line of the processor's local timer. -/
def timerLine : Nat := 1

/-- Line of the interval timer, which drives the pseudo-clock. -/
def intervalLine : Nat := 2

def firstLine : Word := 3

/-- The line whose devices are terminals: two channels in one register block. -/
def terminalLine : Word := 7

def lineCount : Word := 5

def devicesPerLine : Word := 8

/-- Low word of the time of day, in ticks. -/
def timeOfDay : Word := 0x1000001C

/-- Interval timer, in ticks. -/
def intervalTimer : Word := 0x10000020

/-- Ticks per microsecond. -/
def timeScale : Word := 0x10000024

/-- Pending bitmap of the first peripheral line; the others follow. -/
def bitmapBase : Word := 0x10000040

/-- First device register block. -/
def deviceBase : Word := 0x10000054

def blockBytes : Word := 0x10

/-- Bytes of the register blocks of a line. -/
def lineStride : Word := devicesPerLine * blockBytes

/-- Where the firmware leaves the saved state of an exception. -/
def savedStatePage : Word := 0x0FFFF000

/-- Where the firmware finds the nucleus entry points. -/
def passUpVector : Word := 0x0FFFF900

def bitmapAddress (line : Word) : Word := bitmapBase + wordBytes * (line - firstLine)

def blockAddress (line device : Word) : Word :=
  deviceBase + (line - firstLine) * lineStride + device * blockBytes

/-- The line, device and word of the device register block that an address lies in, if any. -/
def locate? (address : Word) : Option (Word × Word × Word) :=
  if address < deviceBase then none
  else
    let offset := address - deviceBase
    let line := offset / lineStride
    if line < lineCount then
      some (firstLine + line, offset % lineStride / blockBytes, offset % blockBytes / wordBytes)
    else none

end Nucleus.Bus
