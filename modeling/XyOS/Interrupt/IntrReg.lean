import XyOS.Foundation.Machine

/-! The registers of the interrupted code, as the entry of an interrupt leaves them on the stack. -/

namespace XyOS.Interrupt
open Machine

structure IntrReg where
  ds : BitVec 16
  es : BitVec 16
  fs : BitVec 16
  gs : BitVec 16
  pEdi : BitVec 32
  pEsi : BitVec 32
  pEbp : BitVec 32
  pEsp : BitVec 32
  pEbx : BitVec 32
  pEdx : BitVec 32
  pEcx : BitVec 32
  pEax : BitVec 32
  intrVecNo : BitVec 32
  errCode : BitVec 32
  eip : BitVec 32
  cs : BitVec 32
  eflags : BitVec 32
  esp : BitVec 32
  ss : BitVec 16
deriving DecidableEq

def readIntrReg (m : Memory) (p : BitVec 32) : IntrReg where
  ds := loadHalf m p
  es := loadHalf m (p + 2#32)
  fs := loadHalf m (p + 4#32)
  gs := loadHalf m (p + 6#32)
  pEdi := load m (p + 8#32)
  pEsi := load m (p + 12#32)
  pEbp := load m (p + 16#32)
  pEsp := load m (p + 20#32)
  pEbx := load m (p + 24#32)
  pEdx := load m (p + 28#32)
  pEcx := load m (p + 32#32)
  pEax := load m (p + 36#32)
  intrVecNo := load m (p + 40#32)
  errCode := load m (p + 44#32)
  eip := load m (p + 48#32)
  cs := load m (p + 52#32)
  eflags := load m (p + 56#32)
  esp := load m (p + 60#32)
  ss := loadHalf m (p + 64#32)

end XyOS.Interrupt
