import QemuBoard.Library.Action
import QemuBoard.Library.Flags
import QemuBoard.Library.Lanes
import QemuBoard.Library.Timers
import QemuBoard.Library.Trace
import QemuBoard.Uart.Device
import QemuBoard.Uart.DeviceLaws
import QemuBoard.Uart.Interrupt
import QemuBoard.Uart.Receiver
import QemuBoard.Uart.Transmitter
import QemuBoard.Can.Bus
import QemuBoard.Can.BusLaws
import QemuBoard.Can.Mailbox
import QemuBoard.Library.Program
import QemuBoard.Uart.Acknowledge
import QemuBoard.Can.Driver
import QemuBoard.Can.Interrupt
import QemuBoard.Can.DriverLaws
import QemuBoard.Can.Transfer
import QemuBoard.Demo.Main
import QemuBoard.Demo.Pipeline
import QemuBoard.Library.EventLoop
import QemuBoard.Uart.Clock
import QemuBoard.Uart.Reset
import QemuBoard.Can.Forward
import QemuBoard.Uart.Duplex
import QemuBoard.Uart.Guest
import QemuBoard.Can.TornRead
import QemuBoard.Library.Preempt
import QemuBoard.Uart.Console
import QemuBoard.Uart.FlowControl
import QemuBoard.Uart.Preemption
import QemuBoard.Demo.Interrupts
import QemuBoard.Can.Command
import QemuBoard.Can.Completion
import QemuBoard.Can.Delivery
import QemuBoard.Can.Length
import QemuBoard.Can.Symmetry
import QemuBoard.Library.Alarm
import QemuBoard.Uart.CharTime
import QemuBoard.Uart.Errors
import QemuBoard.Uart.Pacing
import QemuBoard.Board.Access
import QemuBoard.Board.Guest
import QemuBoard.Board.Isolation
