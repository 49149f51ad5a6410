import DaredevilSmall.Mmio.Prog
import DaredevilSmall.Mmio.Memory
import DaredevilSmall.Mmio.Monitor
import DaredevilSmall.Mmio.Result
import DaredevilSmall.Mmio.Interleave
import DaredevilSmall.Data.Pieces
import DaredevilSmall.Data.Blocks
import DaredevilSmall.Crypto.BlockMode
import DaredevilSmall.Csec.Device
import DaredevilSmall.Csec.Driver
import DaredevilSmall.Csec.Ram
import DaredevilSmall.Csec.Layout
import DaredevilSmall.Csec.Access
import DaredevilSmall.Csec.Discipline
import DaredevilSmall.Csec.Session
import DaredevilSmall.Csec.Transcript
import DaredevilSmall.Csec.Failure
import DaredevilSmall.Csec.PageCount
import DaredevilSmall.Csec.She
import DaredevilSmall.Csec.Commands
import DaredevilSmall.Csec.ErrorPath
import DaredevilSmall.Csec.Cbc
import DaredevilSmall.Csec.Mac
import DaredevilSmall.Csec.Verify
import DaredevilSmall.Adc.Driver
import DaredevilSmall.Adc.Readings
import DaredevilSmall.Can.Driver
import DaredevilSmall.Can.Mailbox
import DaredevilSmall.Can.Frames
import DaredevilSmall.Can.Activation
import DaredevilSmall.Can.Padding
import DaredevilSmall.Scg.Driver
import DaredevilSmall.Scg.Validity
import DaredevilSmall.App.Main
import DaredevilSmall.App.System
import DaredevilSmall.Csec.Single
import DaredevilSmall.App.Frame
import DaredevilSmall.App.FailStop
import DaredevilSmall.App.Safety
import DaredevilSmall.Csec.Overrun
import DaredevilSmall.Csec.Service
import DaredevilSmall.Csec.SelfTest
import DaredevilSmall.App.Delivery
import DaredevilSmall.Scg.Configured
import DaredevilSmall.Scg.Reference
import DaredevilSmall.Csec.Reference.Access
import DaredevilSmall.Csec.Reference.Driver
import DaredevilSmall.Csec.Reference.Steps
import DaredevilSmall.Mmio.Chain
import DaredevilSmall.Csec.Reference.Requests
import DaredevilSmall.Csec.Reference.Mac
import DaredevilSmall.Csec.Reference.Cbc
import DaredevilSmall.Csec.Reference.Blocking
import DaredevilSmall.Csec.Reference.Agreement
import DaredevilSmall.Csec.Reference.Orders
import DaredevilSmall.Csec.Reference.Async
import DaredevilSmall.Csec.Reference.Ledger
