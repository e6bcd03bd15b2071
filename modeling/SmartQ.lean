import SmartQ.Lib.Bytes
import SmartQ.Lib.Disk
import SmartQ.Lib.CInt
import SmartQ.Lib.Prog
import SmartQ.Lib.Ram
import SmartQ.Lib.Limit
import SmartQ.Firmware.Header
import SmartQ.Firmware.MkSmartQ
import SmartQ.Firmware.Extract
import SmartQ.Firmware.Upgrade
import SmartQ.Firmware.Stage
import SmartQ.Firmware.Copies
import SmartQ.Firmware.EndState
import SmartQ.UBoot.Mmc
import SmartQ.UBoot.Addressing
import SmartQ.UBoot.CmdHhtech
import SmartQ.UBoot.Fallback
import SmartQ.Qi.StartQi
import SmartQ.Firmware.FirstWrites
import SmartQ.Firmware.PowerFail
import SmartQ.Firmware.Reject
import SmartQ.Firmware.Layout
import SmartQ.Usb.Bulk
import SmartQ.Usb.RoundTrip
import SmartQ.Usb.Framing
import SmartQ.Qi.ReadFile
import SmartQ.Qi.Coalesce
import SmartQ.Qi.Inside
import SmartQ.Qi.Device
import SmartQ.Qi.Ext2
import SmartQ.Qi.Phase2
import SmartQ.Qi.FileReads
import SmartQ.Qi.Pool
import SmartQ.UBoot.Fat
import SmartQ.UBoot.FatFrame
import SmartQ.UBoot.FatBuffers
import SmartQ.Usb.Control
import SmartQ.Usb.ControlServe
import SmartQ.Firmware.ExtractSafe
import SmartQ.Firmware.Partition
import SmartQ.Firmware.CopyLoop
import SmartQ.Firmware.RootfsSize
import SmartQ.Firmware.Processes
import SmartQ.Qi.Devread
import SmartQ.Qi.Mount
import SmartQ.Lib.Walk
import SmartQ.Qi.Volume
import SmartQ.Qi.Contents
import SmartQ.Qi.Directory
import SmartQ.Qi.Turns
import SmartQ.Qi.TagList
import SmartQ.Lib.Runs
import SmartQ.Lib.Crc32
import SmartQ.Usb.Reception
import SmartQ.Usb.Upload
import SmartQ.UBoot.FlashRead
import SmartQ.UBoot.SdUpgrade
import SmartQ.UBoot.Bootm
import SmartQ.UBoot.CardInfo
import SmartQ.Qi.Handover
import SmartQ.Qi.HsMmc
import SmartQ.UBoot.FatTable
import SmartQ.UBoot.FatContents
import SmartQ.UBoot.FatChain
import SmartQ.UBoot.FatGeometry
import SmartQ.UBoot.FatLongName
import SmartQ.UBoot.FileCheckSum
import SmartQ.Usb.SdBlock
import SmartQ.Usb.Console
import SmartQ.UBoot.Gpio
import SmartQ.Qi.I2cPrograms
import SmartQ.Qi.MemoryTest
import SmartQ.Qi.NandParts
import SmartQ.Qi.CrcTable
import SmartQ.Qi.Malloc
import SmartQ.Qi.SdReads
import SmartQ.Qi.GlamoInit
import SmartQ.Firmware.LlDelay
import SmartQ.Firmware.LlPort
import SmartQ.Qi.OwnLine
import SmartQ.Lib.StringBlock
import SmartQ.UBoot.Vsprintf
import SmartQ.UBoot.Environment
import SmartQ.UBoot.SavedEnv
import SmartQ.Lib.Zipper
import SmartQ.Lib.RingBuffer
import SmartQ.UBoot.LineSession
import SmartQ.UBoot.MainLoop
import SmartQ.Lib.ShiftRegister
import SmartQ.UBoot.MkImage
import SmartQ.UBoot.ImageBoot
import SmartQ.UBoot.ImageList
import SmartQ.UBoot.FatFiles
import SmartQ.UBoot.FatLoad
import SmartQ.UBoot.SdFile
